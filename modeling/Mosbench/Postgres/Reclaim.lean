import Mosbench.Gsl.Calls
import Mosbench.Postgres.LockTable

/-!
Reclamation of lock table entries. CleanUpLock reads the pin count and then the counts word;
between the two reads a holder can pin the entry and give up its last hold, and the entry goes
away under it.
-/
namespace Mosbench.Postgres

open Backend Finset State Option Function

open Gsl (Mode LockCounts ConflictTable)

variable {P A : Type*}

namespace Pc

def pinned : Pc A → Option A
  | .unlockFound a _ _ | .unlockCreated a _ _ | .callAcquire a _ _ | .acquire a _
  | .sleepUnpin a _ | .acquireUnpin a _ _ | .callRelease a _ | .release a _ | .cleanUp a _
  | .cleanUpUnpin a => some a
  | _ => none

def entry : Pc A → Option A
  | .pinFound a _ _ | .pinCreated a _ _ | .sleepUnlock a _ | .asleep a _ | .releasePin a _
  | .cleanUpTest a | .cleanUpRemove a => some a
  | pc => pc.pinned

def shared : Pc A → Bool
  | .lookup _ _ | .pinFound _ _ _ | .unlockFound _ _ _ | .unlockMissing _ _ => true
  | _ => false

def exclusive : Pc A → Bool
  | .create _ _ | .pinCreated _ _ _ | .unlockCreated _ _ _ | .sleepUnpin _ _ | .sleepUnlock _ _
  | .cleanUpUnpin _ | .cleanUpTest _ | .cleanUpRemove _ | .cleanUpUnlock => true
  | _ => false

/-- The entry on which a call of gslAcquire or gslRelease is under way. -/
def engaged : Pc A → Option A
  | .acquire a _ | .sleepUnpin a _ | .sleepUnlock a _ | .asleep a _ | .release a _ => some a
  | _ => none

/-- The entry and mode whose hold is not in the LOCALLOCK yet, or no longer. -/
def granted : Pc A → Option (A × Mode)
  | .acquireUnpin a m true | .releasePin a m | .callRelease a m => some (a, m)
  | _ => none

def releasing : Pc A → Option Mode
  | .releasePin _ m | .callRelease _ m | .release _ m => some m
  | _ => none

end Pc

def Uses (b : Backend A) (a : A) : Prop :=
  b.pc.entry = some a ∨ ∃ m l, b.locallock m = some l ∧ l.lock = a

def Recorded (b : Backend A) (a : A) (m : Mode) : Prop :=
  (∃ l, b.locallock m = some l ∧ l.lock = a) ∨ b.pc.granted = some (a, m)

/-- What the backend has to do with the GSL lock at `a` agrees with its program point. -/
structure Agrees (b : Backend A) (a : A) (me : Gsl.Proc P) : Prop where
  away : b.pc.engaged ≠ some a → me.pc = .idle
  acquiring : ∀ m, b.pc = .acquire a m → me.pc.acquiring = some m
  sleeping : ∀ m, b.pc = .sleepUnpin a m ∨ b.pc = .sleepUnlock a m ∨ b.pc = .asleep a m →
    me.pc = .sleep m
  releasing : ∀ m, b.pc = .release a m → me.pc.acquiring = none ∧
    ∀ n, me.pc.releasing = some n → n = m
  recorded : ∀ m, Recorded b a m → Gsl.lcGetActive me.holding m ≠ 0

def Unused (s : State P A) (p : P) (a : A) : Prop :=
  (∀ q, q ≠ p → ¬ Uses (s.backend q) a) ∧ ∀ m l, (s.backend p).locallock m = some l → l.lock ≠ a

theorem Unused.congr {s : State P A} (h : Unused s p a)
    (hother : ∀ q, q ≠ p → t.backend q = s.backend q)
    (hself : (t.backend p).locallock = (s.backend p).locallock) : Unused t p a := by
  constructor
  · intro q hq
    rw [hother q hq]
    exact h.1 q hq
  · rw [hself]
    exact h.2

variable [DecidableEq P] [DecidableEq A] [Fintype P]

def pinCount (s : State P A) (a : A) : ℕ := ∑ p, if (s.backend p).pc.pinned = some a then 1 else 0

structure Inv (conflicts : ConflictTable) (s : State P A) : Prop where
  used : ∀ a, Gsl.Used conflicts (s.entry a).gsl
  shared : ∀ p, (s.backend p).pc.shared = true → s.readers p = true
  readers : ∀ p, s.readers p = true → s.writer = none
  exclusive : ∀ p, (s.backend p).pc.exclusive = true → s.writer = some p
  mutex : ∀ a p, (s.entry a).gsl.lock.queueLock = some p → s.writer = some p
  agrees : ∀ p a, Agrees (s.backend p) a ((s.entry a).gsl.proc p)
  taken : ∀ p m, (s.backend p).pc.releasing = some m → (s.backend p).locallock m = none
  pins : ∀ a, (s.entry a).pins = pinCount s a
  live : ∀ p a, Uses (s.backend p) a → s.table = some a
  clean : ∀ a, s.table ≠ some a → ∀ p, ((s.entry a).gsl.proc p).holding = 0#128 ∧
    ((s.entry a).gsl.proc p).woken = false
  window : ∀ p a, (s.backend p).pc = .cleanUpTest a → (s.entry a).gsl.lock.c = 0#128 → Unused s p a
  remove : ∀ p a, (s.backend p).pc = .cleanUpRemove a → (s.entry a).gsl.lock.c = 0#128 ∧
    Unused s p a
  sound : ∀ p, (s.backend p).pc ≠ .panicked

/-- The step does not take the counts word to zero by a release while another
backend has seen no pin and is about to read that word. -/
def ReclaimSafe (s : State P A) (x : P × Act A) : Prop :=
  ∀ a m, (s.backend x.1).pc = .release a m →
    ((s.entry a).gsl.proc x.1).pc = .relSet m (s.entry a).gsl.lock.c →
    Gsl.lcSubtract (s.entry a).gsl.lock.c (Gsl.lcActive m) = 0#128 →
    ∀ q, (s.backend q).pc ≠ .cleanUpTest a

instance [Fintype A] (s : State P A) (x : P × Act A) : Decidable (ReclaimSafe s x) :=
  inferInstanceAs (Decidable (∀ _ : A, ∀ _ : Mode, _ → _ → _ → ∀ _ : P, _))

/-- What happens to the GSL lock of the entry at `a`. -/
inductive Change (conflicts : ConflictTable) (s : State P A) (p : P) (a : A) : Gsl.State P → Prop
  | same : Change conflicts s p a (s.entry a).gsl
  | step {x : Gsl.Act} {g : Gsl.State P} (hx : x ≠ .cancel)
      (hg : Gsl.step conflicts (s.entry a).gsl (p, x) = some g)
      (hentry : (s.backend p).pc.entry = some a) : Change conflicts s p a g
  | init (ht : s.table = none) :
      Change conflicts s p a { (s.entry a).gsl with lock := Gsl.gslLockInit }

variable {conflicts : ConflictTable} {s : State P A} {e : Effect P A}

theorem Change.setGsl (h : Change conflicts s p a g) (a' : A) :
    Change conflicts s p a' ((s.setGsl a g).entry a').gsl := by
  rw [setGsl_gsl]
  split
  · next ha =>
    rw [ha]
    exact h
  · exact .same

theorem Move.change (hm : Move conflicts s p e b) (a : A) :
    Change conflicts s p a ((e.apply s p).entry a).gsl := by
  cases hm with
  | callAcquire hpc hg | callRelease hpc hg =>
    exact Change.setGsl (.step (by simp) hg (by rw [hpc]; rfl)) a
  | @gsl a' m g e hpc hg he =>
    have hchange : Change conflicts s p a' g := by
      refine .step (x := .run) (by simp) hg ?_
      rcases hpc with hpc | hpc <;> rw [hpc] <;> rfl
    cases he <;> exact Change.setGsl hchange a
  | create hpc ht => exact Change.setGsl (.init ht) a
  | count _ _ => exact .same
  | _ => first | exact .same | (simp only [Effect.apply, addPins_gsl]; exact .same)

namespace Pc

omit [DecidableEq A] in
theorem entry_of_engaged {pc : Pc A} (h : pc.engaged = some a) : pc.entry = some a := by
  cases pc <;> first | exact h | cases h

omit [DecidableEq A] in
theorem entry_of_pinned {pc : Pc A} (h : pc.pinned = some a) : pc.entry = some a := by
  cases pc <;> first | exact h | cases h

end Pc

variable {b : Backend A}

omit [DecidableEq A] [DecidableEq P] [Fintype P] in
theorem Agrees.phase (h : Agrees b a me)
    (hbusy : me.pc ≠ .idle) : (∃ m, b.pc = .acquire a m ∧ me.pc.acquiring = some m) ∨
      (∃ m, me.pc = .sleep m) ∨ ∃ m, b.pc = .release a m ∧ me.pc.acquiring = none ∧
        ∀ n, me.pc.releasing = some n → n = m := by
  have hengaged : b.pc.engaged = some a := by
    by_contra haway
    exact hbusy (h.away haway)
  cases hpc : b.pc with
  | acquire a' m =>
    obtain rfl : a' = a := by simpa [hpc, Pc.engaged] using hengaged
    exact .inl ⟨m, rfl, h.acquiring m hpc⟩
  | sleepUnpin a' m | sleepUnlock a' m | asleep a' m =>
    obtain rfl : a' = a := by simpa [hpc, Pc.engaged] using hengaged
    exact .inr (.inl ⟨m, h.sleeping m (by simp [hpc])⟩)
  | release a' m =>
    obtain rfl : a' = a := by simpa [hpc, Pc.engaged] using hengaged
    exact .inr (.inr ⟨m, rfl, h.releasing m hpc⟩)
  | _ => simp [hpc, Pc.engaged] at hengaged

omit [DecidableEq A] [DecidableEq P] [Fintype P] in
theorem Agrees.congr (h : Agrees b a me)
    (hpc : me'.pc = me.pc) (hholding : me'.holding = me.holding) : Agrees b a me' := by
  constructor
  · rw [hpc]
    exact h.away
  · rw [hpc]
    exact h.acquiring
  · rw [hpc]
    exact h.sleeping
  · rw [hpc]
    exact h.releasing
  · rw [hholding]
    exact h.recorded

namespace Inv

theorem not_uses (hI : Inv conflicts s) (ht : s.table ≠ some a) (q : P) :
    ¬ Uses (s.backend q) a := fun huses => ht (hI.live q a huses)

theorem used_step (hI : Inv conflicts s) (hm : Move conflicts s p e b) (a : A) :
    Gsl.Used conflicts ((e.apply s p).entry a).gsl := by
  have hchange := hm.change a
  generalize ((e.apply s p).entry a).gsl = g at hchange ⊢
  cases hchange with
  | same => exact hI.used a
  | @step x _ hx hg _ => exact Transition.Reachable.step (hI.used a) (a := (p, x)) hx hg
  | init ht =>
    have hnone : s.table ≠ some a := by simp [ht]
    refine Transition.Reachable.of_initial ⟨rfl, ?_, ?_, ?_⟩
    · intro q
      exact (hI.clean a hnone q).1
    · intro q
      exact (hI.clean a hnone q).2
    · intro q
      apply (hI.agrees q a).away
      intro hengaged
      exact hI.not_uses hnone q (.inl (Pc.entry_of_engaged hengaged))

theorem agrees_other (hI : Inv conflicts s) (hm : Move conflicts s p e b) (hq : q ≠ p)
    (a : A) : Agrees (s.backend q) a (((e.apply s p).entry a).gsl.proc q) := by
  have hchange := hm.change a
  generalize ((e.apply s p).entry a).gsl = g at hchange ⊢
  cases hchange with
  | same | init _ => exact hI.agrees q a
  | step _ hg _ =>
    rcases (Gsl.trans_of_step hg).proc_of_ne hq with ⟨v, hv⟩ | ⟨-, hv⟩
    · exact (hI.agrees q a).congr (by rw [hv, Gsl.Proc.relink_pc]) (by rw [hv]; rfl)
    · exact (hI.agrees q a).congr (by rw [hv]) (by rw [hv])

end Inv

def Effect.Pins (before after : Option A) : Effect P A → Prop
  | .pin a => before = none ∧ after = some a
  | .unpin a => before = some a ∧ after = none
  | _ => after = before

omit [DecidableEq A] [DecidableEq P] [Fintype P] in
theorem pinned_afterGsl {pc : Pc A} (me : Gsl.Proc P)
    (hpc : pc = .acquire a m ∨ pc = .release a m) :
    (afterGsl pc me).pinned = pc.pinned := by
  rcases hpc with rfl | rfl <;> cases hme : me.pc <;> simp [afterGsl, hme, Pc.pinned]

omit [DecidableEq A] in
theorem Move.pins (hm : Move conflicts s p e b) : e.Pins (s.backend p).pc.pinned b.pc.pinned := by
  cases hm with
  | gsl hpc _ he =>
    cases he <;> exact pinned_afterGsl _ hpc
  | _ => simp_all [Effect.Pins, Pc.pinned, Backend.goto, Backend.setLocal]

theorem two_pins (hpq : p ≠ q)
    (hp : (s.backend p).pc.pinned = some a) (hq : (s.backend q).pc.pinned = some a) :
    2 ≤ pinCount s a := by
  have hcard : ({p, q} : Finset P).card ≤
      (Finset.univ.filter fun r => (s.backend r).pc.pinned = some a).card := by
    refine card_le_card ?_
    intro r hr
    rcases mem_insert.mp hr with rfl | hr
    · simp [hp]
    · simp [mem_singleton.mp hr, hq]
  rw [card_pair hpq] at hcard
  rwa [pinCount, ← card_filter]

theorem pinCount_step (a : A) : pinCount ((e.apply s p).setBackend p b) a +
        (if (s.backend p).pc.pinned = some a then 1 else 0) =
      pinCount s a + (if b.pc.pinned = some a then 1 else 0) := by
  have hsum := Tally.sum_add_of_agree (p := p)
    (f := fun q => if (s.backend q).pc.pinned = some a then 1 else 0)
    (g := fun q => if (((e.apply s p).setBackend p b).backend q).pc.pinned = some a then 1 else 0)
    (fun q hq => by rw [setBackend_of_ne hq, apply_backend])
  simp only [setBackend_self] at hsum
  exact hsum

theorem Inv.pins_step (hI : Inv conflicts s) (hm : Move conflicts s p e b) (a : A) :
    ((e.apply s p).entry a).pins = pinCount ((e.apply s p).setBackend p b) a := by
  have hpins := hm.pins
  have hcount := hI.pins a
  have hsum := pinCount_step (s := s) (p := p) (e := e) (b := b) a
  have hkeep : b.pc.pinned = (s.backend p).pc.pinned →
      ((e.apply s p).entry a).pins = (s.entry a).pins →
      ((e.apply s p).entry a).pins = pinCount ((e.apply s p).setBackend p b) a := by
    intro hsame hentry
    rw [hsame] at hsum
    omega
  cases e with
  | pin a' =>
    obtain ⟨hbefore, hafter⟩ := hpins
    rw [hbefore, hafter] at hsum
    have hentry := addPins_pins s a' a 1
    by_cases ha : a = a'
    · rw [if_neg (by simp), if_pos (by rw [ha])] at hsum
      rw [if_pos ha] at hentry
      exact hentry.trans (by omega)
    · rw [if_neg (by simp), if_neg (by simpa using Ne.symm ha)] at hsum
      rw [if_neg ha] at hentry
      exact hentry.trans (by omega)
  | unpin a' =>
    obtain ⟨hbefore, hafter⟩ := hpins
    rw [hbefore, hafter] at hsum
    have hentry := addPins_pins s a' a (-1)
    by_cases ha : a = a'
    · rw [if_pos (by rw [ha]), if_neg (by simp)] at hsum
      rw [if_pos ha] at hentry
      exact hentry.trans (by omega)
    · rw [if_neg (by simpa using Ne.symm ha), if_neg (by simp)] at hsum
      rw [if_neg ha] at hentry
      exact hentry.trans (by omega)
  | create a' | gsl a' g | gslLock a' g | gslUnlock a' g => exact hkeep hpins (setGsl_pins ..)
  | _ => exact hkeep hpins rfl

def Effect.Locks (s : State P A) (p : P) (before after : Pc A) : Effect P A → Prop
  | .lockShared => s.writer = none ∧ after.exclusive = false
  | .unlockShared => after.shared = false ∧ after.exclusive = false
  | .lockExclusive => Unlocked s ∧ after.shared = false
  | .unlockExclusive => before.exclusive = true ∧ after.shared = false ∧ after.exclusive = false
  | .gsl _ _ => after.shared = false ∧ (after.exclusive = true → s.writer = some p)
  | .gslLock _ _ => Unlocked s ∧ after.shared = false ∧ after.exclusive = false
  | .gslUnlock a _ => (s.entry a).gsl.lock.queueLock = some p ∧ after.shared = false ∧
      after.exclusive = false
  | _ => (after.shared = true → before.shared = true) ∧
      (after.exclusive = true → before.exclusive = true)

omit [DecidableEq A] [DecidableEq P] [Fintype P] in
theorem section_afterGsl {pc : Pc A} (me : Gsl.Proc P)
    (hpc : pc = .acquire a m ∨ pc = .release a m) : (afterGsl pc me).shared = false ∧
      ((afterGsl pc me).exclusive = true → pc = .acquire a m ∧ ∃ n, me.pc = .sleep n) := by
  rcases hpc with rfl | rfl <;> cases hme : me.pc <;>
    simp [afterGsl, hme, Pc.shared, Pc.exclusive]

theorem Inv.locks (hI : Inv conflicts s) (hm : Move conflicts s p e b) :
    e.Locks s p (s.backend p).pc b.pc := by
  cases hm with
  | @gsl a m g e hpc hg he =>
    have hbasic := (hI.used a).basic
    have htrans := Gsl.trans_of_run hg
    obtain ⟨hshared, hexcl⟩ := section_afterGsl (g.proc p) hpc
    have hsleep : (afterGsl (s.backend p).pc (g.proc p)).exclusive = true →
        (s.entry a).gsl.lock.queueLock = some p ∧ g.lock.queueLock = none := by
      intro h
      obtain ⟨-, n, hn⟩ := hexcl h
      exact htrans.to_sleep hbasic hn
    cases he with
    | inside _ | sleep _ _ _ => exact ⟨hshared, fun h => hI.mutex a p (hsleep h).1⟩
    | lock _ hq hfree =>
      refine ⟨hfree, hshared, ?_⟩
      by_contra h
      have hnone := (hsleep (by simpa [Backend.goto] using h)).2
      exact absurd (hq.symm.trans hnone) (by simp)
    | unlock hpc' hne hq =>
      refine ⟨?_, hshared, ?_⟩
      · rcases htrans.queueLock hbasic with h | ⟨-, h⟩ | ⟨h, -⟩
        · exact absurd h hne
        · exact absurd h hq
        · exact h
      · by_contra h
        obtain ⟨hacq, -⟩ := hexcl (by simpa [Backend.goto] using h)
        rw [hpc'] at hacq
        cases hacq
  | _ => simp_all [Effect.Locks, Pc.shared, Pc.exclusive, Backend.goto, Backend.setLocal]

namespace Inv

section

variable (hI : Inv conflicts s)

include hI

theorem shared_step (hm : Move conflicts s p e b)
    (hq : (((e.apply s p).setBackend p b).backend q).pc.shared = true) :
    (e.apply s p).readers q = true := by
  have hlocks := hI.locks hm
  by_cases hqp : q = p
  · subst q
    rw [setBackend_self] at hq
    cases e with
    | lockShared => exact update_self ..
    | unlockShared | lockExclusive | unlockExclusive | gsl a g | gslLock a g | gslUnlock a g =>
      simp [Effect.Locks, hq] at hlocks
    | _ => exact hI.shared p (hlocks.1 hq)
  · rw [setBackend_of_ne hqp, apply_backend] at hq
    have hreader := hI.shared q hq
    cases e with
    | lockShared | unlockShared => exact (update_of_ne hqp ..).trans hreader
    | _ => exact hreader

theorem readers_step (hm : Move conflicts s p e b)
    (hq : (e.apply s p).readers q = true) : (e.apply s p).writer = none := by
  have hlocks := hI.locks hm
  cases e with
  | lockShared => exact hlocks.1
  | unlockShared =>
    by_cases hqp : q = p
    · subst q
      have hfalse : (Effect.unlockShared.apply s p).readers p = false := update_self ..
      exact absurd (hfalse.symm.trans hq) (by simp)
    · exact hI.readers q ((update_of_ne hqp ..).symm.trans hq)
  | lockExclusive | gslLock a g => exact absurd ((hlocks.1.2 q).symm.trans hq) (by simp)
  | unlockExclusive | gslUnlock a g => rfl
  | _ => exact hI.readers q hq

theorem exclusive_step (hm : Move conflicts s p e b)
    (hq : (((e.apply s p).setBackend p b).backend q).pc.exclusive = true) :
    (e.apply s p).writer = some q := by
  have hlocks := hI.locks hm
  by_cases hqp : q = p
  · subst q
    rw [setBackend_self] at hq
    cases e with
    | lockShared | unlockShared | unlockExclusive | gslUnlock a g =>
      simp [Effect.Locks, hq] at hlocks
    | lockExclusive | gslLock a g => rfl
    | gsl a g => exact hlocks.2 hq
    | _ => exact hI.exclusive p (hlocks.2 hq)
  · rw [setBackend_of_ne hqp, apply_backend] at hq
    have hwriter := hI.exclusive q hq
    have hother : s.writer = some p → False := by
      intro hp
      exact hqp (some.inj (hwriter.symm.trans hp))
    cases e with
    | lockExclusive | gslLock a g => exact absurd (hlocks.1.1.symm.trans hwriter) (by simp)
    | unlockExclusive => exact (hother (hI.exclusive p hlocks.1)).elim
    | gslUnlock a g => exact (hother (hI.mutex a p hlocks.1)).elim
    | _ => exact hwriter

theorem engaged_of_mutex
    (hq : (s.entry a).gsl.lock.queueLock = some q) : ∃ m, (s.backend q).pc = .acquire a m ∨
      (s.backend q).pc = .release a m := by
  have hown := ((hI.used a).basic.mutex q).mpr hq
  have hbusy : ((s.entry a).gsl.proc q).pc ≠ .idle := by
    intro hidle
    rw [hidle] at hown
    cases hown
  rcases (hI.agrees q a).phase hbusy with ⟨m, hpc, -⟩ | ⟨m, hsleep⟩ | ⟨m, hpc, -⟩
  · exact ⟨m, .inl hpc⟩
  · rw [hsleep] at hown
    cases hown
  · exact ⟨m, .inr hpc⟩

theorem mutex_gsl
    (hg : Gsl.run conflicts (s.entry a).gsl p = some g) (he : GslMove s p a g e)
    (hq : ((e.apply s p).entry a').gsl.lock.queueLock = some q) :
    (e.apply s p).writer = some q := by
  have hlock := (Gsl.trans_of_run hg).queueLock (hI.used a).basic
  have hentry : ((s.setGsl a g).entry a').gsl.lock.queueLock = some q →
      (a' = a ∧ g.lock.queueLock = some q) ∨
        (a' ≠ a ∧ (s.entry a').gsl.lock.queueLock = some q) := by
    intro h
    rw [setGsl_gsl] at h
    split at h
    · next ha => exact .inl ⟨ha, h⟩
    · next ha => exact .inr ⟨ha, h⟩
  cases he with
  | inside hsame =>
    rcases hentry hq with ⟨-, hnew⟩ | ⟨-, hold⟩
    · exact hI.mutex a q (hsame.symm.trans hnew)
    · exact hI.mutex a' q hold
  | lock _ hmine hfree =>
    rcases hentry hq with ⟨-, hnew⟩ | ⟨-, hold⟩
    · exact hmine.symm.trans hnew
    · exact absurd (hfree.1.symm.trans (hI.mutex a' q hold)) (by simp)
  | sleep _ hne hnot =>
    rcases hentry hq with ⟨-, hnew⟩ | ⟨-, hold⟩
    · rcases hlock with h | ⟨-, h⟩ | ⟨-, h⟩
      · exact absurd h hne
      · exact absurd h hnot
      · exact absurd (h.symm.trans hnew) (by simp)
    · exact hI.mutex a' q hold
  | unlock hrel hne hnot =>
    have howner : (s.entry a).gsl.lock.queueLock = some p ∧ g.lock.queueLock = none := by
      rcases hlock with h | ⟨-, h⟩ | h
      · exact absurd h hne
      · exact absurd h hnot
      · exact h
    rcases hentry hq with ⟨-, hnew⟩ | ⟨hne', hold⟩
    · exact absurd (howner.2.symm.trans hnew) (by simp)
    · have hqp : q = p := some.inj ((hI.mutex a' q hold).symm.trans (hI.mutex a p howner.1))
      obtain ⟨n, hn⟩ := hI.engaged_of_mutex hold
      rw [hqp, hrel] at hn
      rcases hn with hn | hn
      · cases hn
      · cases hn
        exact absurd rfl hne'

theorem no_mutex (hp : (s.backend p).pc.exclusive = true) (a : A) (q : P) :
    (s.entry a).gsl.lock.queueLock ≠ some q := by
  intro hq
  have hqp : q = p := some.inj ((hI.mutex a q hq).symm.trans (hI.exclusive p hp))
  obtain ⟨m, hpc⟩ := hI.engaged_of_mutex hq
  rw [hqp] at hpc
  rcases hpc with hpc | hpc <;> rw [hpc] at hp <;> cases hp

theorem mutex_step (hm : Move conflicts s p e b)
    (hq : ((e.apply s p).entry a).gsl.lock.queueLock = some q) :
    (e.apply s p).writer = some q := by
  have hlocks := hI.locks hm
  have hcall : ∀ a' g x, x ≠ Gsl.Act.run → x ≠ .cancel →
      Gsl.step conflicts (s.entry a').gsl (p, x) = some g →
      ((s.setGsl a' g).entry a).gsl.lock.queueLock = some q → s.writer = some q := by
    intro a' g x hrun hcancel hg h
    rw [setGsl_gsl] at h
    split at h
    · next ha =>
      refine hI.mutex a q ?_
      rw [ha]
      cases Gsl.trans_of_step hg with
      | move _ => exact h
      | _ => exact absurd rfl hrun
    · exact hI.mutex a q h
  have hpin : ∀ a' d, ((s.addPins a' d).entry a).gsl.lock.queueLock = some q →
      s.writer = some q := by
    intro a' d h
    rw [addPins_gsl] at h
    exact hI.mutex a q h
  cases hm with
  | gsl _ hg he => exact hI.mutex_gsl hg he hq
  | callAcquire _ hg | callRelease _ hg => exact hcall _ _ _ (by simp) (by simp) hg hq
  | @create a' m d _ _ =>
    have hinit := setGsl_gsl s a' a { (s.entry a').gsl with lock := Gsl.gslLockInit }
    change ((s.setGsl a' _).entry a).gsl.lock.queueLock = some q at hq
    rw [hinit] at hq
    split at hq
    · cases hq
    · exact hI.mutex a q hq
  | lockCreate _ hfree | lockCleanUp _ hfree =>
    exact absurd (hfree.1.symm.trans (hI.mutex a q hq)) (by simp)
  | unlockCreated hpc | sleepUnlock hpc | cleanUpUnlock hpc =>
    exact absurd hq (hI.no_mutex hlocks.1 a q)
  | _ => first | exact hI.mutex a q hq | exact hpin _ _ hq

end

end Inv

namespace Agrees

omit [DecidableEq A] [DecidableEq P] [Fintype P] in
theorem goto (h : Agrees b a me) (hengaged : b'.pc.engaged = b.pc.engaged)
    (hacquire : ∀ m, b'.pc = .acquire a m → b.pc = .asleep a m)
    (hsleep : ∀ m, b'.pc = .sleepUnpin a m ∨ b'.pc = .sleepUnlock a m ∨ b'.pc = .asleep a m →
      b.pc = .sleepUnpin a m ∨ b.pc = .sleepUnlock a m ∨ b.pc = .asleep a m)
    (hrelease : ∀ m, b'.pc ≠ .release a m)
    (hrecorded : ∀ m, Recorded b' a m → Recorded b a m) : Agrees b' a me where
  away := by
    rw [hengaged]
    exact h.away
  acquiring m hm := by
    rw [h.sleeping m (.inr (.inr (hacquire m hm)))]
    rfl
  sleeping m hm := h.sleeping m (hsleep m hm)
  releasing m hm := absurd hm (hrelease m)
  recorded m hm := h.recorded m (hrecorded m hm)

end Agrees

omit [DecidableEq A] [DecidableEq P] [Fintype P] in
theorem Recorded.of_setLocal
    {pc : Pc A} (h : Recorded ((b.setLocal m l).goto pc) a k)
    (hsame : k = m → ∀ l', l = some l' → l'.lock = a → Recorded b a k)
    (hpc : pc.granted = some (a, k) → Recorded b a k) : Recorded b a k := by
  rcases h with ⟨l', hl', hlock⟩ | h
  · rw [goto_locallock, setLocal_locallock] at hl'
    split at hl'
    · next hk => exact hsame hk l' hl' hlock
    · exact .inl ⟨l', hl', hlock⟩
  · exact hpc h

section

omit [DecidableEq A] [DecidableEq P] [Fintype P]

variable {me : Gsl.Proc P}

theorem Agrees.elsewhere {pc : Pc A} (h : Agrees b a' me)
    (hidle : b.pc.engaged ≠ some a') (hengaged : pc.engaged ≠ some a')
    (hgranted : ∀ k, pc.granted ≠ some (a', k)) : Agrees (b.goto pc) a' me where
  away _ := h.away hidle
  acquiring k hk := absurd (by rw [show pc = _ from hk]; rfl) hengaged
  sleeping k hk := by
    rcases hk with hk | hk | hk <;> exact absurd (by rw [show pc = _ from hk]; rfl) hengaged
  releasing k hk := absurd (by rw [show pc = _ from hk]; rfl) hengaged
  recorded k hk := h.recorded k (.inl (hk.resolve_right (hgranted k)))

theorem afterGsl_entry (me : Gsl.Proc P) {pc : Pc A} (hpc : pc = .acquire a m ∨ pc = .release a m) :
    ((afterGsl pc me).engaged = some a ∨ (afterGsl pc me).engaged = none) ∧
      ∀ a' k, (afterGsl pc me).granted = some (a', k) → a' = a := by
  rcases hpc with rfl | rfl <;> cases hme : me.pc <;>
    simp [afterGsl, hme, Pc.engaged, Pc.granted]
  cases me.result <;> simp_all

theorem afterGsl_busy {pc : Pc A} (hpc : pc = .acquire a m ∨ pc = .release a m)
    (hbusy : me.pc ≠ .idle) : afterGsl pc me = pc ∨
      afterGsl pc me = .sleepUnpin a m ∧ pc = .acquire a m ∧ ∃ k, me.pc = .sleep k := by
  rcases hpc with rfl | rfl <;> cases hme : me.pc <;> simp_all [afterGsl]

theorem Agrees.of_idle (hidle : me.pc = .idle) (hpc : b.pc.engaged = none)
    (hrecorded : ∀ k, Recorded b a k → Gsl.lcGetActive me.holding k ≠ 0) : Agrees b a me where
  away _ := hidle
  acquiring k hk := by
    rw [hk] at hpc
    cases hpc
  sleeping k hk := by
    rcases hk with hk | hk | hk <;> rw [hk] at hpc <;> cases hpc
  releasing k hk := by
    rw [hk] at hpc
    cases hpc
  recorded := hrecorded

theorem Agrees.of_acquire (hpc : b.pc = .acquire a m) (hacq : me.pc.acquiring = some m)
    (hrecorded : ∀ k, Recorded b a k → Gsl.lcGetActive me.holding k ≠ 0) : Agrees b a me where
  away hne := absurd (by rw [hpc]; rfl) hne
  acquiring k hk := by
    rw [hpc] at hk
    cases hk
    exact hacq
  sleeping k hk := by simp [hpc] at hk
  releasing k hk := by simp [hpc] at hk
  recorded := hrecorded

theorem Agrees.of_release (hpc : b.pc = .release a m)
    (hacq : me.pc.acquiring = none) (hrel : ∀ n, me.pc.releasing = some n → n = m)
    (hrecorded : ∀ k, Recorded b a k → Gsl.lcGetActive me.holding k ≠ 0) : Agrees b a me where
  away hne := absurd (by rw [hpc]; rfl) hne
  acquiring k hk := by simp [hpc] at hk
  sleeping k hk := by simp [hpc] at hk
  releasing k hk := by
    rw [hpc] at hk
    cases hk
    exact ⟨hacq, hrel⟩
  recorded := hrecorded

end

section

omit [DecidableEq A] [DecidableEq P] [Fintype P]

theorem Agrees.locallock (h : Agrees b a me)
    {pc : Pc A} (hpc : pc.granted = none) (hk : Recorded (b.goto pc) a k) :
    Gsl.lcGetActive me.holding k ≠ 0 := by
  rcases hk with hk | hk
  · exact h.recorded k (.inl hk)
  · rw [goto_pc, hpc] at hk
    cases hk

theorem Agrees.acquire
    (h : Agrees b a (u.proc p)) (hpc : b.pc = .acquire a m) (hu : Gsl.Basic conflicts u)
    (hcall : Gsl.Call u g p) : Agrees (b.goto (afterGsl b.pc (g.proc p))) a (g.proc p) := by
  have hacq := h.acquiring m hpc
  cases hcall with
  | inside hholding hacq' _ hbusy =>
    rw [hacq] at hacq'
    rcases afterGsl_busy (.inl hpc) hbusy with hsame | ⟨hsleep, -, k, hk⟩
    · rw [hsame, hpc]
      refine .of_acquire rfl hacq' ?_
      intro n hn
      rw [hholding]
      exact h.locallock rfl hn
    · rw [hsleep]
      have hkm : k = m := by
        rw [hk] at hacq'
        exact some.inj hacq'
      refine ⟨fun hne => absurd rfl hne, by simp, ?_, by simp, ?_⟩
      · intro n hn
        simp only [goto_pc, Pc.sleepUnpin.injEq, reduceCtorEq, or_false] at hn
        rw [hk, hkm, hn.2]
      · intro n hn
        rw [hholding]
        exact h.locallock rfl hn
  | @acquired k hk hholding hidle =>
    obtain rfl : m = k := some.inj (hacq.symm.trans hk)
    have hadd := (hu.proc p).active_add ((hu.proc p).acquiring m hk)
    have hpc' : afterGsl b.pc (g.proc p) = .acquireUnpin a m (g.proc p).result := by
      simp [afterGsl, hpc, hidle]
    refine .of_idle hidle (by rw [hpc']; rfl) ?_
    intro n hn
    rw [hholding, hadd]
    by_cases hnm : n = m
    · simp [hnm]
    · have hlocal : Gsl.lcGetActive (u.proc p).holding n ≠ 0 := by
        rcases hn with hn | hn
        · exact h.recorded n (.inl hn)
        · rw [goto_pc, hpc'] at hn
          cases hr : (g.proc p).result <;> rw [hr] at hn <;> cases hn
          exact absurd rfl hnm
      omega
  | refused _ hholding hidle hresult =>
    have hpc' : afterGsl b.pc (g.proc p) = .acquireUnpin a m false := by
      simp [afterGsl, hpc, hidle, hresult]
    rw [hpc']
    refine .of_idle hidle rfl ?_
    intro n hn
    rw [hholding]
    exact h.locallock rfl hn
  | lowered hrel _ _ =>
    rw [Gsl.Pc.acquiring_of_releasing hrel] at hacq
    cases hacq
  | returned hnone _ _ =>
    rw [hacq] at hnone
    cases hnone

theorem Agrees.release
    (h : Agrees b a (u.proc p)) (hpc : b.pc = .release a m) (htaken : b.locallock m = none)
    (hu : Gsl.Basic conflicts u) (hcall : Gsl.Call u g p) :
    Agrees (b.goto (afterGsl b.pc (g.proc p))) a (g.proc p) := by
  obtain ⟨hacq, hrel⟩ := h.releasing m hpc
  have hreturn : (g.proc p).pc = .idle →
      afterGsl b.pc (g.proc p) = .cleanUp a (g.proc p).lastHold := by
    intro hidle
    simp [afterGsl, hpc, hidle]
  have hstay : (g.proc p).pc ≠ .idle → afterGsl b.pc (g.proc p) = .release a m := by
    intro hbusy
    rcases afterGsl_busy (.inr hpc) hbusy with hsame | ⟨-, hacq', -⟩
    · rw [hsame, hpc]
    · rw [hpc] at hacq'
      cases hacq'
  cases hcall with
  | inside hholding hacq' hrel' hbusy =>
    rw [hstay hbusy]
    refine .of_release (m := m) rfl (hacq'.trans hacq) (fun n hn => hrel n (hrel' n hn)) ?_
    intro n hn
    rw [hholding]
    exact h.locallock rfl hn
  | acquired hk _ _ =>
    rw [hacq] at hk
    cases hk
  | refused hk _ _ _ => exact absurd hacq hk
  | @lowered k hk hholding hafter =>
    obtain rfl : k = m := hrel k hk
    have hsub := (hu.proc p).active_subtract ((hu.proc p).releasing k hk)
    have hrecorded : ∀ pc n, pc.granted = none → Recorded (b.goto pc) a n →
        Gsl.lcGetActive (g.proc p).holding n ≠ 0 := by
      intro pc n hplain hn
      have hactive := h.locallock hplain hn
      have hnk : n ≠ k := by
        intro hnk
        rcases hn with ⟨l, hl, -⟩ | hn
        · rw [hnk, goto_locallock, htaken] at hl
          cases hl
        · rw [goto_pc, hplain] at hn
          cases hn
      have hcount := hsub n
      rw [if_neg hnk] at hcount
      rw [hholding]
      omega
    rcases hafter with hidle | hmutex
    · rw [hreturn hidle]
      exact .of_idle hidle rfl (fun n => hrecorded _ n rfl)
    · rw [hstay (by simp [hmutex])]
      exact .of_release (m := k) rfl (by rw [hmutex]; rfl) (by simp [hmutex, Gsl.Pc.releasing])
        (fun n => hrecorded _ n rfl)
  | returned _ hholding hidle =>
    rw [hreturn hidle]
    refine .of_idle hidle rfl ?_
    intro n hn
    rw [hholding]
    exact h.locallock rfl hn

end

theorem Inv.agrees_self (hI : Inv conflicts s) (hm : Move conflicts s p e b) (a : A) :
    Agrees b a (((e.apply s p).entry a).gsl.proc p) := by
  have hold := hI.agrees p a
  cases hm with
  | @count m l n hpc hl =>
    refine hold.goto rfl (by simp_all [Backend.setLocal]) (by simp_all [Backend.setLocal])
      (by simp_all [Backend.setLocal]) ?_
    intro k hk
    have hk' : Recorded (((s.backend p).setLocal m (some ⟨l.lock, n⟩)).goto (s.backend p).pc) a k :=
      hk
    refine hk'.of_setLocal ?_ (fun hpc' => .inr hpc')
    intro hkm l' hl' hlock
    cases hl'
    exact .inl ⟨l, hkm ▸ hl, hlock⟩
  | @release m l hpc hl =>
    refine hold.goto (by simp [hpc, Backend.goto, Pc.engaged]) (by simp [Backend.goto])
      (by simp [Backend.goto]) (by simp [Backend.goto]) ?_
    intro k hk
    refine hk.of_setLocal (by simp) ?_
    intro hpc'
    obtain ⟨rfl, rfl⟩ := Prod.mk.inj (some.inj hpc')
    exact .inl ⟨l, hl, rfl⟩
  | @granted a' m hpc =>
    rw [Effect.apply, addPins_gsl]
    refine hold.goto (by simp [hpc, Backend.goto, Pc.engaged]) (by simp [Backend.goto])
      (by simp [Backend.goto]) (by simp [Backend.goto]) ?_
    intro k hk
    refine hk.of_setLocal ?_ (by simp [Pc.granted])
    intro hkm l' hl' hlock
    cases hl'
    exact .inr (by rw [hpc, hkm, ← hlock]; rfl)
  | @create a' m d hpc _ =>
    have hproc : ((s.initEntry a').entry a).gsl.proc p = (s.entry a).gsl.proc p := by
      rw [State.initEntry, setGsl_gsl]
      split
      · next ha => rw [ha]
      · rfl
    rw [Effect.apply, hproc]
    refine hold.goto ?_ ?_ ?_ ?_ ?_ <;> simp_all [Backend.goto, Pc.engaged, Pc.granted, Recorded]
  | @callAcquire a' m d g hpc hg =>
    have hidle : (s.backend p).pc.engaged ≠ some a := by simp [hpc, Pc.engaged]
    rw [Effect.apply, setGsl_gsl]
    split
    · next ha =>
      subst a'
      simp only [Gsl.step, ite_none_right_eq_some, some.injEq] at hg
      obtain ⟨-, rfl⟩ := hg
      rw [Gsl.State.setPc_proc_self]
      exact .of_acquire (m := m) rfl (by cases d <;> rfl) (fun n hn => hold.locallock rfl hn)
    · next ha =>
      exact hold.elsewhere hidle (by simpa [Pc.engaged] using Ne.symm ha) (by simp [Pc.granted])
  | @callRelease a' m g hpc hg =>
    have hidle : (s.backend p).pc.engaged ≠ some a := by simp [hpc, Pc.engaged]
    rw [Effect.apply, setGsl_gsl]
    split
    · next ha =>
      subst a'
      simp only [Gsl.step, ite_none_right_eq_some, some.injEq] at hg
      obtain ⟨-, rfl⟩ := hg
      rw [Gsl.State.setPc_proc_self]
      exact .of_release (m := m) rfl rfl (by simp [Gsl.Pc.releasing])
        (fun n hn => hold.locallock rfl hn)
    · next ha =>
      exact hold.elsewhere hidle (by simpa [Pc.engaged] using Ne.symm ha) (by simp [Pc.granted])
  | @gsl a' m g e hpc hg he =>
    have hcall := (Gsl.trans_of_run hg).call ((hI.used a').canceling p)
    have hgsl : Agrees ((s.backend p).goto (afterGsl (s.backend p).pc (g.proc p))) a
        (((s.setGsl a' g).entry a).gsl.proc p) := by
      rw [setGsl_gsl]
      split
      · next ha =>
        subst a'
        rcases hpc with hpc | hpc
        · exact hold.acquire hpc (hI.used a).basic hcall
        · exact hold.release hpc (hI.taken p m (by rw [hpc]; rfl)) (hI.used a).basic hcall
      · next ha =>
        obtain ⟨hengaged, hgranted⟩ := afterGsl_entry (g.proc p) hpc
        refine hold.elsewhere ?_ ?_ (fun k hk => ha (hgranted a k hk))
        · rcases hpc with hpc | hpc <;> simpa [hpc, Pc.engaged] using Ne.symm ha
        · rcases hengaged with h | h <;> simp [h, Ne.symm ha]
    cases he <;> exact hgsl
  | _ =>
    (try simp only [Effect.apply, addPins_gsl])
    refine hold.goto ?_ ?_ ?_ ?_ ?_ <;> simp_all [Backend.goto, Pc.engaged, Pc.granted, Recorded]

omit [DecidableEq A] [DecidableEq P] [Fintype P] in
theorem uses_afterGsl {pc : Pc A} (me : Gsl.Proc P)
    (hpc : pc = .acquire a m ∨ pc = .release a m) : (afterGsl pc me).entry = pc.entry ∧
      ∀ k, (afterGsl pc me).releasing = some k → pc.releasing = some k := by
  rcases hpc with rfl | rfl <;> cases hme : me.pc <;>
    simp [afterGsl, hme, Pc.entry, Pc.pinned, Pc.releasing]

theorem Inv.taken_step (hI : Inv conflicts s) (hm : Move conflicts s p e b)
    (h : b.pc.releasing = some m) : b.locallock m = none := by
  have hold := hI.taken p m
  cases hm with
  | gsl hpc _ _ => exact hold ((uses_afterGsl _ hpc).2 m h)
  | @release k l hpc hl =>
    obtain rfl := some.inj h
    rw [goto_locallock, setLocal_locallock, if_pos rfl]
  | _ => simp_all [Pc.releasing]

theorem Move.uses (hm : Move conflicts s p e b) (h : Uses b a) :
    Uses (s.backend p) a ∨ (e.apply s p).table = some a ∧
      ((s.backend p).pc.shared = true ∨ (s.backend p).pc.exclusive = true) := by
  rcases h with h | ⟨m, l, hl, hlock⟩
  · cases hm with
    | gsl hpc _ _ =>
      left
      left
      rw [← (uses_afterGsl _ hpc).1]
      exact h
    | @release m l hpc hl => exact .inl (.inr ⟨m, l, hl, some.inj h⟩)
    | _ => simp_all [Uses, Pc.entry, Pc.pinned, Effect.apply, Pc.shared, Pc.exclusive]
  · left
    have hkeep : ∀ k l', (s.backend p).locallock k = some l' → l'.lock = a →
        Uses (s.backend p) a := fun k l' hl' hlock' => .inr ⟨k, l', hl', hlock'⟩
    cases hm with
    | @count k l' n hpc hl' =>
      rw [setLocal_locallock] at hl
      split at hl
      · cases hl
        exact hkeep k l' hl' hlock
      · exact hkeep m l hl hlock
    | @release k l' hpc hl' =>
      rw [goto_locallock, setLocal_locallock] at hl
      split at hl
      · cases hl
      · exact hkeep m l hl hlock
    | @granted a' k hpc =>
      rw [goto_locallock, setLocal_locallock] at hl
      split at hl
      · cases hl
        left
        rw [hpc, ← hlock]
        rfl
      · exact hkeep m l hl hlock
    | _ => exact hkeep m l hl hlock

theorem Move.table (hm : Move conflicts s p e b) (ht : s.table = some a) :
    (e.apply s p).table = some a ∨ e = .remove := by
  cases hm with
  | create _ hnone => exact absurd (hnone.symm.trans ht) (by simp)
  | remove _ _ => exact .inr rfl
  | gsl _ _ he => cases he <;> exact .inl ht
  | _ => exact .inl ht

omit [DecidableEq A] [DecidableEq P] [Fintype P] in
theorem afterGsl_pinned_ne {pc : Pc A}
    (hpc : pc = .acquire a m ∨ pc = .release a m) : (afterGsl pc me).pinned ≠ none := by
  rw [pinned_afterGsl me hpc]
  rcases hpc with rfl | rfl <;> simp [Pc.pinned]

section

omit [DecidableEq A]

theorem Move.to_test (hm : Move conflicts s p e b) (h : b.pc = .cleanUpTest a) :
    (s.backend p).pc = .cleanUpUnpin a ∧ e = .unpin a ∧ ¬ (s.entry a).pins - 1 > 0 ∧
      b.locallock = (s.backend p).locallock := by
  cases hm with
  | @lastPin a' hpc hpins =>
    cases h
    exact ⟨hpc, rfl, hpins, rfl⟩
  | gsl hpc _ _ =>
    exact absurd (by rw [show afterGsl _ _ = _ from h]; rfl) (afterGsl_pinned_ne hpc)
  | _ => simp_all

theorem Move.to_remove (hm : Move conflicts s p e b) (h : b.pc = .cleanUpRemove a) :
    (s.backend p).pc = .cleanUpTest a ∧ e = .skip ∧ (s.entry a).gsl.lock.c = 0#128 ∧
      b.locallock = (s.backend p).locallock := by
  cases hm with
  | @unheld a' hpc hc =>
    cases h
    exact ⟨hpc, rfl, hc, rfl⟩
  | gsl hpc _ _ =>
    exact absurd (by rw [show afterGsl _ _ = _ from h]; rfl) (afterGsl_pinned_ne hpc)
  | _ => simp_all

theorem Move.of_remove (hm : Move conflicts s p .remove b) :
    ∃ a, (s.backend p).pc = .cleanUpRemove a ∧ b = (s.backend p).goto .cleanUpUnlock := by
  generalize he : Effect.remove = e at hm
  cases hm with
  | @remove a hpc _ => exact ⟨a, hpc, rfl⟩
  | gsl _ _ hg => cases hg <;> cases he
  | _ => cases he

end

namespace Inv

section

variable (hI : Inv conflicts s)

include hI

theorem removed (hm : Move conflicts s p .remove b)
    (ht : s.table = some a) : (s.entry a).gsl.lock.c = 0#128 ∧
      ∀ q, ¬ Uses ((((Effect.remove).apply s p).setBackend p b).backend q) a := by
  obtain ⟨a', hpc, rfl⟩ := hm.of_remove
  have ha : a' = a := by
    have hlive := hI.live p a' (.inl (by rw [hpc]; rfl))
    exact some.inj (hlive.symm.trans ht)
  subst a'
  obtain ⟨hc, hothers, hself⟩ := hI.remove p a hpc
  refine ⟨hc, ?_⟩
  intro q huses
  by_cases hqp : q = p
  · subst q
    rw [setBackend_self] at huses
    rcases huses with h | ⟨m, l, hl, hlock⟩
    · cases h
    · exact hself m l hl hlock
  · rw [setBackend_of_ne hqp, apply_backend] at huses
    exact hothers q hqp huses

theorem live_step (hm : Move conflicts s p e b)
    (h : Uses (((e.apply s p).setBackend p b).backend q) a) : (e.apply s p).table = some a := by
  have hbefore : Uses (s.backend q) a ∨ (e.apply s p).table = some a := by
    by_cases hqp : q = p
    · subst q
      rw [setBackend_self] at h
      exact (hm.uses h).imp id And.left
    · rw [setBackend_of_ne hqp, apply_backend] at h
      exact .inl h
  rcases hbefore with hold | hnew
  · have ht := hI.live q a hold
    rcases hm.table ht with hkept | rfl
    · exact hkept
    · exact absurd h ((hI.removed hm ht).2 q)
  · exact hnew

theorem clean_step (hcard : Fintype.card P < 2 ^ 15)
    (hm : Move conflicts s p e b) (ht : (e.apply s p).table ≠ some a) (q : P) :
    (((e.apply s p).entry a).gsl.proc q).holding = 0#128 ∧
      (((e.apply s p).entry a).gsl.proc q).woken = false := by
  by_cases hold : s.table = some a
  · rcases hm.table hold with hkept | rfl
    · exact absurd hkept ht
    · exact (hI.used a).holding_eq_zero hcard (hI.removed hm hold).1 q
  · have hchange := hm.change a
    generalize ((e.apply s p).entry a).gsl = g at hchange ⊢
    cases hchange with
    | same | init _ => exact hI.clean a hold q
    | step _ _ hentry => exact absurd (hI.live p a (.inl hentry)) hold

/-- With no pin but its own gone, a zero counts word tells `p` that nobody uses the entry. -/
theorem unused_of_zero (hcard : Fintype.card P < 2 ^ 15)
    (hexcl : (s.backend p).pc.exclusive = true) (hc : (s.entry a).gsl.lock.c = 0#128)
    (hpins : ∀ q, q ≠ p → (s.backend q).pc.pinned ≠ some a) : Unused s p a := by
  have hwriter := hI.exclusive p hexcl
  have hunused := (hI.used a).unused hcard hc
  have hrecorded : ∀ q m, ¬ Recorded (s.backend q) a m := by
    intro q m h
    exact (hunused q m).1 (.inl ((hI.agrees q a).recorded m h))
  have halone : ∀ q, q ≠ p → (s.backend q).pc.exclusive ≠ true := by
    intro q hq h
    exact hq (some.inj ((hI.exclusive q h).symm.trans hwriter))
  refine ⟨?_, fun m l hl hlock => hrecorded p m (.inl ⟨l, hl, hlock⟩)⟩
  intro q hq huses
  rcases huses with h | ⟨m, l, hl, hlock⟩
  · cases hpc : (s.backend q).pc with
    | pinFound a' m d =>
      have hreader := hI.readers q (hI.shared q (by rw [hpc]; rfl))
      exact absurd (hreader.symm.trans hwriter) (by simp)
    | pinCreated a' m d | sleepUnlock a' m | cleanUpTest a' | cleanUpRemove a' =>
      exact halone q hq (by rw [hpc]; rfl)
    | asleep a' m =>
      rw [hpc] at h
      obtain rfl := some.inj h
      have hsleep := (hI.agrees q a').sleeping m (.inr (.inr hpc))
      have hwoken := ((hI.used a').holding_eq_zero hcard hc q).2
      exact (hunused q m).2.2 ⟨by rw [hsleep]; rfl, hwoken⟩
    | releasePin a' m =>
      rw [hpc] at h
      obtain rfl := some.inj h
      exact hrecorded q m (.inr (by rw [hpc]; rfl))
    | _ =>
      rw [hpc] at h
      exact hpins q hq (by rw [hpc]; exact h)
  · exact hrecorded q m (.inl ⟨l, hl, hlock⟩)

theorem unused_step (hm : Move conflicts s p e b) (hq : q ≠ p)
    (hexcl : (s.backend q).pc.exclusive = true) (h : Unused s q a) :
    Unused ((e.apply s p).setBackend p b) q a := by
  have hwriter := hI.exclusive q hexcl
  constructor
  · intro r hr huses
    by_cases hrp : r = p
    · subst r
      rw [setBackend_self] at huses
      rcases hm.uses huses with hold | ⟨-, hshared | hexcl'⟩
      · exact h.1 p hr hold
      · exact absurd ((hI.readers p (hI.shared p hshared)).symm.trans hwriter) (by simp)
      · exact hr (some.inj ((hI.exclusive p hexcl').symm.trans hwriter))
    · rw [setBackend_of_ne hrp, apply_backend] at huses
      exact h.1 r hr huses
  · rw [setBackend_of_ne hq, apply_backend]
    exact h.2

theorem release_of_relSet
    (h : ((s.entry a).gsl.proc p).pc = .relSet m pre) : (s.backend p).pc = .release a m := by
  rcases (hI.agrees p a).phase (by simp [h]) with ⟨n, -, hacq⟩ | ⟨n, hsleep⟩ | ⟨n, hpc, -, hrel⟩
  · rw [h] at hacq
    cases hacq
  · rw [h] at hsleep
    cases hsleep
  · rw [hpc, hrel m (by rw [h]; rfl)]

/-- No step makes the counts word of the entry zero while `q` is about to test it. -/
theorem zero_before (hcard : Fintype.card P < 2 ^ 15)
    (hm : Move conflicts s p e b) (hok : ReclaimSafe s (p, x))
    (hpc : (s.backend q).pc = .cleanUpTest a)
    (hc : ((e.apply s p).entry a).gsl.lock.c = 0#128) : (s.entry a).gsl.lock.c = 0#128 := by
  have hlive := hI.live q a (.inl (by rw [hpc]; rfl))
  have hchange := hm.change a
  generalize ((e.apply s p).entry a).gsl = g at hchange hc
  cases hchange with
  | same => exact hc
  | @step x g hx hg hentry =>
    by_contra hne
    by_cases hrun : x = .run
    · subst x
      obtain ⟨m, hset, hzero⟩ := (hI.used a).zero_of_release hcard hg hne hc
      exact hok a m (hI.release_of_relSet hset) hset hzero q hpc
    · cases Gsl.trans_of_step hg with
      | move _ => exact hne hc
      | _ => exact hrun rfl
  | init ht => exact absurd (ht.symm.trans hlive) (by simp)

theorem counts_kept (hm : Move conflicts s p e b) (hq : q ≠ p)
    (hentry : (s.backend q).pc.entry = some a) (h : Unused s q a) :
    ((e.apply s p).entry a).gsl.lock.c = (s.entry a).gsl.lock.c := by
  have hlive := hI.live q a (.inl hentry)
  have hchange := hm.change a
  generalize ((e.apply s p).entry a).gsl = g at hchange ⊢
  cases hchange with
  | same => rfl
  | step _ _ hentry' => exact absurd (.inl hentry') (h.1 p (Ne.symm hq))
  | init ht => exact absurd (ht.symm.trans hlive) (by simp)

theorem window_step (hcard : Fintype.card P < 2 ^ 15)
    (hm : Move conflicts s p e b) (hok : ReclaimSafe s (p, x))
    (hpc : (((e.apply s p).setBackend p b).backend q).pc = .cleanUpTest a)
    (hc : ((e.apply s p).entry a).gsl.lock.c = 0#128) :
    Unused ((e.apply s p).setBackend p b) q a := by
  by_cases hqp : q = p
  · subst q
    rw [setBackend_self] at hpc
    obtain ⟨hold, rfl, hpins, hlocal⟩ := hm.to_test hpc
    rw [Effect.apply, addPins_gsl] at hc
    refine Unused.congr (hI.unused_of_zero hcard (by rw [hold]; rfl) hc ?_) ?_ ?_
    · intro r hr hpinned
      have hcount := hI.pins a
      have htwo := two_pins (s := s) (Ne.symm hr) (by rw [hold]; rfl) hpinned
      omega
    · intro r hr
      rw [setBackend_of_ne hr, apply_backend]
    · rw [setBackend_self, hlocal]
  · rw [setBackend_of_ne hqp, apply_backend] at hpc
    have hbefore := hI.zero_before hcard hm hok hpc hc
    exact hI.unused_step hm hqp (by rw [hpc]; rfl) (hI.window q a hpc hbefore)

theorem remove_step (hm : Move conflicts s p e b)
    (hpc : (((e.apply s p).setBackend p b).backend q).pc = .cleanUpRemove a) :
    ((e.apply s p).entry a).gsl.lock.c = 0#128 ∧ Unused ((e.apply s p).setBackend p b) q a := by
  by_cases hqp : q = p
  · subst q
    rw [setBackend_self] at hpc
    obtain ⟨hold, rfl, hc, hlocal⟩ := hm.to_remove hpc
    refine ⟨hc, Unused.congr (hI.window p a hold hc) ?_ ?_⟩
    · intro r hr
      rw [setBackend_of_ne hr, apply_backend]
    · rw [setBackend_self, hlocal]
  · rw [setBackend_of_ne hqp, apply_backend] at hpc
    obtain ⟨hc, hunused⟩ := hI.remove q a hpc
    refine ⟨?_, hI.unused_step hm hqp (by rw [hpc]; rfl) hunused⟩
    rw [hI.counts_kept hm hqp (by rw [hpc]; rfl) hunused]
    exact hc

theorem sound_step (hm : Move conflicts s p e b) : b.pc ≠ .panicked := by
  have hold := hI.sound p
  cases hm with
  | @corrupted a hpc ht =>
    have hlive := hI.live p a (.inl (by rw [hpc]; rfl))
    exact absurd (ht.symm.trans hlive) (by simp)
  | gsl hpc _ _ =>
    intro hpanic
    exact afterGsl_pinned_ne hpc (by rw [show afterGsl _ _ = _ from hpanic]; rfl)
  | _ => simp_all

theorem step (hcard : Fintype.card P < 2 ^ 15)
    (hm : Move conflicts s p e b) (hok : ReclaimSafe s (p, x)) :
    Inv conflicts ((e.apply s p).setBackend p b) where
  used := hI.used_step hm
  shared _ := hI.shared_step hm
  readers _ := hI.readers_step hm
  exclusive _ := hI.exclusive_step hm
  mutex _ _ := hI.mutex_step hm
  agrees q a := by
    by_cases hqp : q = p
    · subst q
      rw [setBackend_self]
      exact hI.agrees_self hm a
    · rw [setBackend_of_ne hqp, apply_backend]
      exact hI.agrees_other hm hqp a
  taken q m := by
    by_cases hqp : q = p
    · subst q
      rw [setBackend_self]
      exact hI.taken_step hm
    · rw [setBackend_of_ne hqp, apply_backend]
      exact hI.taken q m
  pins := hI.pins_step hm
  live _ _ := hI.live_step hm
  clean _ := hI.clean_step hcard hm
  window _ _ := hI.window_step hcard hm hok
  remove _ _ := hI.remove_step hm
  sound q := by
    by_cases hqp : q = p
    · subst q
      rw [setBackend_self]
      exact hI.sound_step hm
    · rw [setBackend_of_ne hqp, apply_backend]
      exact hI.sound q

end

end Inv

theorem Initial.inv (h : Initial s) : Inv conflicts s where
  used a := Transition.Reachable.of_initial (h.gsl a)
  shared p hp := by simp [h.pc p, Pc.shared] at hp
  readers _ _ := h.writer
  exclusive p hp := by simp [h.pc p, Pc.exclusive] at hp
  mutex a p hp := by simp [(h.gsl a).lock, Gsl.gslLockInit] at hp
  agrees p a := by
    refine .of_idle ((h.gsl a).pc p) (by rw [h.pc p]; rfl) ?_
    intro k hk
    rcases hk with ⟨l, hl, -⟩ | hk
    · rw [h.locallock p k] at hl
      cases hl
    · rw [h.pc p] at hk
      cases hk
  taken p m hm := by simp [h.pc p, Pc.releasing] at hm
  pins a := by simp [h.pins a, pinCount, h.pc, Pc.pinned]
  live p a huses := by
    rcases huses with hp | ⟨m, l, hl, -⟩
    · simp [h.pc p, Pc.entry, Pc.pinned] at hp
    · simp [h.locallock p m] at hl
  clean a _ p := ⟨(h.gsl a).holding p, (h.gsl a).woken p⟩
  window p a hp := by simp [h.pc p] at hp
  remove p a hp := by simp [h.pc p] at hp
  sound p := by simp [h.pc p]

theorem inv_of_reachable (hcard : Fintype.card P < 2 ^ 15)
    (h : Transition.Reachable (system conflicts) ReclaimSafe s) : Inv conflicts s := by
  refine h.invariant (fun s (hs : Initial s) => hs.inv) ?_
  intro s x t _ hI hok hstep
  obtain ⟨e, b, hm, rfl⟩ := move_of_step hstep
  exact hI.step hcard hm (x := x.2) hok

/-- In runs in which no release empties the counts word between the two reads of
a reclaimer, an entry is removed only when it has no pins and nobody holds it,
waits on it or has it pinned; whoever uses an entry uses the one in the table,
and the removal never finds the table without it. -/
theorem entry_removed_unused (hcard : Fintype.card P < 2 ^ 15)
    (h : Transition.Reachable (system conflicts) ReclaimSafe s) :
    (∀ x t a, Postgres.step conflicts s x = some t → s.table = some a → t.table ≠ some a →
      (s.entry a).pins = 0 ∧ ∀ q, (s.backend q).pc.pinned ≠ some a ∧
        ∀ m, ¬ Gsl.Holds (s.entry a).gsl q m ∧ ¬ Gsl.Published (s.entry a).gsl q m) ∧
    (∀ q a, Uses (s.backend q) a → s.table = some a) ∧
    ∀ q, (s.backend q).pc ≠ .panicked := by
  have hI := inv_of_reachable hcard h
  refine ⟨?_, hI.live, hI.sound⟩
  intro x t a hstep ht hgone
  obtain ⟨e, b, hm, rfl⟩ := move_of_step hstep
  rcases hm.table ht with hkept | rfl
  · exact absurd hkept hgone
  · obtain ⟨hc, hunused⟩ := hI.removed hm ht
    obtain ⟨a', hpc, hb⟩ := hm.of_remove
    have hpinned : ∀ q, (s.backend q).pc.pinned ≠ some a := by
      intro q hq
      by_cases hqp : q = x.1
      · rw [hqp, hpc] at hq
        cases hq
      · refine hunused q (.inl (Pc.entry_of_pinned ?_))
        rw [setBackend_of_ne hqp, apply_backend]
        exact hq
    refine ⟨?_, ?_⟩
    · rw [hI.pins a, pinCount]
      simp [hpinned]
    · intro q
      refine ⟨hpinned q, ?_⟩
      intro m
      obtain ⟨hholds, -, hpub⟩ := (hI.used a).unused hcard hc q m
      exact ⟨hholds, hpub⟩

open List

/-- A single backend takes mode 0, gives it back, and reclaims the entry. -/
theorem entry_removed_unused_alone : ∃ s t : State (Fin 1) Unit,
    Postgres.step (Gsl.lcInitConflictTable [1#32]) s (0, .run) = some t ∧
    s.table = some () ∧ t.table = none ∧ (s.entry ()).pins = 0 ∧
    ∀ m, ¬ Gsl.Holds (s.entry ()).gsl 0 m := by
  obtain ⟨s, hreach, hpc, ht⟩ := Transition.exists_reachable
    (system (P := Fin 1) (A := Unit) (Gsl.lcInitConflictTable [1#32])) ReclaimSafe
    (fun s => (s.backend 0).pc = .cleanUpRemove () ∧ s.table = some ())
    ([(0, .acquire 0 false)] ++ replicate 4 (0, .run) ++ [(0, .create ())] ++
      replicate 6 (0, .run) ++ [(0, .release 0)] ++ replicate 7 (0, .run))
    fresh_initial (by decide +kernel)
  have hstep : Postgres.step (Gsl.lcInitConflictTable [1#32]) s (0, .run) = some
      (((Effect.remove).apply s 0).setBackend 0 ((s.backend 0).goto .cleanUpUnlock)) := by
    simp [Postgres.step, next, runNext, hpc, ht]
  have hsafe := (entry_removed_unused (by decide) hreach).1 _ _ () hstep ht (by simp [Effect.apply])
  exact ⟨s, _, hstep, ht, rfl, hsafe.1, fun m => ((hsafe.2 0).2 m).1⟩

/-- Backend 0 has found no pin and not yet read the counts word when backend 1
pins the entry and gives up the last hold. The entry is removed under the pin of
backend 1, whose own removal then finds the lock table corrupted. -/
theorem entry_removed_under_pin : (∃ s : State (Fin 2) Unit, Transition.Reachable
      (system (Gsl.lcInitConflictTable [0#32])) (fun _ _ => True) s ∧
      (s.backend 0).pc = .cleanUpRemove () ∧ s.table = some () ∧
      (s.backend 1).pc.pinned = some () ∧ (s.entry ()).pins = 1) ∧
    ∃ s : State (Fin 2) Unit, Transition.Reachable
      (system (Gsl.lcInitConflictTable [0#32])) (fun _ _ => True) s ∧
      (s.backend 1).pc = .panicked := by
  -- the second run continues the first: backend 0 removes, then backend 1 tries to
  obtain ⟨s, hreach, hpins, hpanics⟩ := Transition.exists_reachable
    (system (P := Fin 2) (A := Unit) (Gsl.lcInitConflictTable [0#32])) (fun _ _ => True)
    (fun s => ((s.backend 0).pc = .cleanUpRemove () ∧ s.table = some () ∧
      (s.backend 1).pc.pinned = some () ∧ (s.entry ()).pins = 1) ∧
      (Transition.exec (system (Gsl.lcInitConflictTable [0#32])) (fun _ _ => True) s
        (replicate 2 (0, .run) ++ replicate 4 (1, .run))).any
        fun t => (t.backend 1).pc = .panicked)
    ([(0, .acquire 0 false)] ++ replicate 4 (0, .run) ++ [(0, .create ())] ++
      replicate 6 (0, .run) ++ [(0, .release 0)] ++ replicate 4 (0, .run) ++
      [(1, .acquire 0 false)] ++ replicate 8 (1, .run) ++ replicate 2 (0, .run) ++
      [(1, .release 0)] ++ replicate 4 (1, .run) ++ [(0, .run)])
    fresh_initial (by decide +kernel)
  obtain ⟨t, ht, hpc⟩ := (any_eq_true _ _).mp hpanics
  exact ⟨⟨s, hreach, hpins⟩, _, hreach.exec ht, of_decide_eq_true hpc⟩

end Mosbench.Postgres
