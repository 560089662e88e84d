import Mosbench.Lib.Tally
import Mosbench.Lib.Transition

/-!
How pedsort hands the input files to its cores (dofiles in pedsort.C). Every core
adds one to `shared->did`, takes the new value as the number of its next document
and then reads the counter again to see whether it should stop. The documents have
the numbers from 1 up to `max_did - 1`, and initshared starts the counter at 1.
-/
namespace Mosbench.Psearchy.Dofiles

open List Option Transition

variable [Fintype C] [DecidableEq C]

/-- main read `nfiles` names; `readable d` says that fopen succeeds on document `d`.
With `threaded` the cores are threads of one process, else each is a process. -/
structure Job where
  nfiles : ℕ
  readable : ℕ → Bool
  threaded : Bool

def Job.maxDid (j : Job) : ℕ := j.nfiles + 1

/-- Where a core is in the loop of dofiles: before the atomic add, between the add
and the second read of the counter, before it opens the file, after the loop, and
after cleanup has ended it because the file could not be opened. -/
inductive Phase
  | loop
  | drawn (d : ℕ)
  | indexing (d : ℕ)
  | done
  | failed (d : ℕ)
  deriving DecidableEq

def Phase.number : Phase → Option ℕ
  | .loop | .done => none
  | .drawn d | .indexing d | .failed d => some d

structure State (C : Type) where
  did : ℕ
  phase : C → Phase
  indexed : List (C × ℕ)

def initshared : State C := ⟨1, fun _ => .loop, []⟩

def State.goto (s : State C) (c : C) (p : Phase) : State C := { s with phase := Function.update s.phase c p }

/-- exit in one thread ends all of them. -/
def State.down (j : Job) (s : State C) : Prop := j.threaded = true ∧ ∃ c d, s.phase c = .failed d

def Phase.isFailed : Phase → Bool
  | .failed _ => true
  | _ => false

instance (j : Job) (s : State C) : Decidable (s.down j) :=
  decidable_of_iff (j.threaded = true ∧ ∃ c, (s.phase c).isFailed = true) <| by
    refine and_congr_right' (exists_congr fun c => ?_)
    cases s.phase c <;> simp [Phase.isFailed]

def step (j : Job) (s : State C) (c : C) : Option (State C) :=
  if s.down j then none else
    match s.phase c with
    | .loop => some { s.goto c (.drawn (s.did + 1)) with did := s.did + 1 }
    | .drawn d => if s.did ≥ j.maxDid then some (s.goto c .done) else some (s.goto c (.indexing d))
    | .indexing d =>
      if j.readable d then some { s.goto c .loop with indexed := s.indexed ++ [(c, d)] }
      else some (s.goto c (.failed d))
    | .done | .failed _ => none

def system (j : Job) : System (State C) C where
  initial s := s = initshared
  step := step j

def State.timesIndexed (s : State C) (d : ℕ) : ℕ := (s.indexed.map Prod.snd).count d

def State.finished (s : State C) : Prop := ∀ c, s.phase c = .done

inductive Turn (j : Job) (s : State C) (c : C) : State C → Prop
  | draws : s.phase c = .loop → Turn j s c { s.goto c (.drawn (s.did + 1)) with did := s.did + 1 }
  | leaves (d : ℕ) : s.phase c = .drawn d → j.maxDid ≤ s.did → Turn j s c (s.goto c .done)
  | takes (d : ℕ) : s.phase c = .drawn d → s.did < j.maxDid → Turn j s c (s.goto c (.indexing d))
  | indexes (d : ℕ) : s.phase c = .indexing d →
      Turn j s c { s.goto c .loop with indexed := s.indexed ++ [(c, d)] }
  | fails (d : ℕ) : s.phase c = .indexing d → Turn j s c (s.goto c (.failed d))

variable {s : State C} {c : C}

theorem step_turn (h : step j s c = some t) : Turn j s c t := by
  unfold step at h
  split at h
  · cases h
  cases hc : s.phase c with
  | loop =>
    simp only [hc, some.injEq] at h
    exact h ▸ .draws hc
  | drawn d =>
    simp only [hc] at h
    split at h
    · next hle => exact some.inj h ▸ .leaves d hc hle
    · next hlt => exact some.inj h ▸ .takes d hc (not_le.mp hlt)
  | indexing d =>
    simp only [hc] at h
    split at h
    · exact some.inj h ▸ .indexes d hc
    · exact some.inj h ▸ .fails d hc
  | done | failed d => simp [hc] at h

/-- The counter has given out the numbers from 2 up to `did`. No two cores have the
same one, and the ones that are indexed were indexed once. -/
structure Inv (j : Job) (s : State C) : Prop where
  pos : 1 ≤ s.did
  given : ∀ c d, (s.phase c).number = some d → 2 ≤ d ∧ d ≤ s.did
  apart : ∀ c c' d, (s.phase c).number = some d → (s.phase c').number = some d → c = c'
  below : ∀ c d, s.phase c = .indexing d → d < j.maxDid
  left : ∀ c, s.phase c = .done → j.maxDid ≤ s.did
  logged : ∀ d ∈ s.indexed.map Prod.snd, 2 ≤ d ∧ d ≤ s.did ∧ d < j.maxDid
  once : (s.indexed.map Prod.snd).Nodup
  fresh : ∀ c d, (s.phase c).number = some d → d ∉ s.indexed.map Prod.snd

omit [Fintype C] [DecidableEq C] in
theorem inv_initshared : Inv j (initshared : State C) where
  pos := le_rfl
  given := by simp [initshared, Phase.number]
  apart := by simp [initshared, Phase.number]
  below := by simp [initshared]
  left := by simp [initshared]
  logged := by simp [initshared]
  once := by simp [initshared]
  fresh := by simp [initshared, Phase.number]

open State

section

omit [Fintype C]

theorem number_goto (h : ((s.goto c p).phase q).number = some d) :
    (q = c ∧ p.number = some d) ∨ (q ≠ c ∧ (s.phase q).number = some d) := by
  by_cases hq : q = c
  · subst hq
    exact .inl ⟨rfl, by simpa [goto] using h⟩
  · exact .inr ⟨hq, by simpa [goto, hq] using h⟩

theorem Inv.goto (hs : Inv j s) (hnum : ∀ d, p.number = some d → (s.phase c).number = some d)
    (hbelow : ∀ d, p = .indexing d → d < j.maxDid) (hleft : p = .done → j.maxDid ≤ s.did) :
    Inv j (s.goto c p) := by
  have hold : ∀ q d, ((s.goto c p).phase q).number = some d → (s.phase q).number = some d := by
    intro q d h
    rcases number_goto h with ⟨rfl, hp⟩ | ⟨-, hq⟩
    · exact hnum d hp
    · exact hq
  refine ⟨hs.pos, fun q d h => hs.given q d (hold q d h),
    fun q q' d h h' => hs.apart q q' d (hold q d h) (hold q' d h'), ?_, ?_, hs.logged, hs.once,
    fun q d h => hs.fresh q d (hold q d h)⟩
  · intro q d h
    by_cases hq : q = c
    · subst hq
      exact hbelow d (by simpa [goto] using h)
    · exact hs.below q d (by simpa [State.goto, hq] using h)
  · intro q h
    by_cases hq : q = c
    · subst hq
      exact hleft (by simpa [goto] using h)
    · exact hs.left q (by simpa [State.goto, hq] using h)

theorem Inv.draw (hs : Inv j s) :
    Inv j { s.goto c (.drawn (s.did + 1)) with did := s.did + 1 } := by
  have hpos := hs.pos
  have hnew : ∀ q d, (s.phase q).number = some d → d ≠ s.did + 1 := by
    intro q d h
    have := (hs.given q d h).2
    omega
  have hdrawn : ∀ d, (Phase.drawn (s.did + 1)).number = some d → d = s.did + 1 := by
    intro d h
    exact (some.inj h).symm
  constructor
  · exact Nat.le_add_left 1 s.did
  · intro q d h
    rcases number_goto h with ⟨-, hd⟩ | ⟨-, hd⟩
    · have := hdrawn d hd
      exact ⟨by omega, this.le⟩
    · have := hs.given q d hd
      exact ⟨this.1, this.2.trans (Nat.le_succ _)⟩
  · intro q q' d h h'
    rcases number_goto h with ⟨rfl, hd⟩ | ⟨-, hd⟩ <;> rcases number_goto h' with ⟨rfl, hd'⟩ | ⟨-, hd'⟩
    · rfl
    · exact absurd (hdrawn d hd) (hnew q' d hd')
    · exact absurd (hdrawn d hd') (hnew q d hd)
    · exact hs.apart q q' d hd hd'
  · intro q d h
    by_cases hq : q = c
    · subst hq
      simp [State.goto] at h
    · exact hs.below q d (by simpa [State.goto, hq] using h)
  · intro q h
    by_cases hq : q = c
    · subst hq
      simp [State.goto] at h
    · exact (hs.left q (by simpa [State.goto, hq] using h)).trans (Nat.le_succ _)
  · intro d h
    obtain ⟨h2, hle, hlt⟩ := hs.logged d h
    exact ⟨h2, hle.trans (Nat.le_succ _), hlt⟩
  · exact hs.once
  · intro q d h
    rcases number_goto h with ⟨-, hd⟩ | ⟨-, hd⟩
    · intro hlog
      have := (hs.logged d hlog).2.1
      have := hdrawn d hd
      omega
    · exact hs.fresh q d hd

theorem Inv.index (hs : Inv j s) (hc : s.phase c = .indexing d) :
    Inv j { s.goto c .loop with indexed := s.indexed ++ [(c, d)] } := by
  have hd : (s.phase c).number = some d := by rw [hc, Phase.number]
  have hmem : ∀ x, x ∈ (s.indexed ++ [(c, d)]).map Prod.snd ↔ x ∈ s.indexed.map Prod.snd ∨ x = d := by
    intro x
    rw [map_append, mem_append, map_singleton, mem_singleton]
  have hgoto : Inv j (s.goto c .loop) := hs.goto (fun _ h => nomatch h) (fun _ h => nomatch h) (fun h => nomatch h)
  refine ⟨hgoto.pos, hgoto.given, hgoto.apart, hgoto.below, hgoto.left, ?_, ?_, ?_⟩
  · intro x hx
    rcases (hmem x).mp hx with hx | rfl
    · exact hs.logged x hx
    · exact ⟨(hs.given c x hd).1, (hs.given c x hd).2, hs.below c x hc⟩
  · rw [map_append, map_singleton, ← concat_eq_append]
    exact hs.once.concat (hs.fresh c d hd)
  · intro q x h hx
    rcases number_goto h with ⟨-, hnone⟩ | ⟨hq, hx'⟩
    · exact nomatch hnone
    · rcases (hmem x).mp hx with hx | rfl
      · exact hs.fresh q x hx' hx
      · exact hq (hs.apart q c x hx' hd)

theorem Inv.turn (hs : Inv j s) (h : Turn j s c t) : Inv j t := by
  cases h with
  | draws _ => exact hs.draw
  | leaves d _ hle => exact hs.goto (fun _ h => nomatch h) (fun _ h => nomatch h) (fun _ => hle)
  | takes d hc hlt =>
    have hd : (s.phase c).number = some d := by rw [hc, Phase.number]
    refine hs.goto (fun x h => ?_) (fun x h => ?_) (fun h => nomatch h)
    · rwa [← some.inj h]
    · cases h
      exact lt_of_le_of_lt (hs.given c d hd).2 hlt
  | indexes d hc => exact hs.index hc
  | fails d hc =>
    refine hs.goto (fun x h => ?_) (fun _ h => nomatch h) (fun h => nomatch h)
    rw [hc]
    exact h

end

theorem inv_of_reachable (h : Reachable (system j) ok s) : Inv j s :=
  h.invariant (I := Inv j) (fun _ hinit => hinit ▸ inv_initshared) fun _ _ _ _ hs _ hstep =>
    hs.turn (step_turn hstep)

theorem timesIndexed_le (h : Reachable (system j) ok s) (d : ℕ) :
    s.timesIndexed d ≤ 1 ∧ (0 < s.timesIndexed d → 2 ≤ d ∧ d < j.maxDid) := by
  have hs := inv_of_reachable h
  refine ⟨nodup_iff_count_le_one.mp hs.once d, ?_⟩
  intro hpos
  obtain ⟨h2, -, hlt⟩ := hs.logged d (count_pos_iff.mp hpos)
  exact ⟨h2, hlt⟩

/-- What is left of a turn of the loop. A core with a number past the end only leaves. -/
def Phase.weight (j : Job) : Phase → ℕ
  | .loop => 2
  | .drawn d => if d < j.maxDid then 4 else 1
  | .indexing _ => 3
  | .done | .failed _ => 0

def State.remaining (j : Job) (s : State C) : ℕ :=
  4 * (j.maxDid - s.did) + ∑ c, (s.phase c).weight j

theorem sum_weight_goto (s : State C) (c : C) (p : Phase) :
    ∑ q, ((s.goto c p).phase q).weight j + (s.phase c).weight j = ∑ q, (s.phase q).weight j + p.weight j := by
  have h := Tally.sum_add_of_agree (p := c) (f := fun q => (s.phase q).weight j)
    (g := fun q => ((s.goto c p).phase q).weight j) fun q hq => by simp [goto, hq]
  simpa [goto] using h

theorem remaining_goto (h : p.weight j < (s.phase c).weight j) :
    (s.goto c p).remaining j < s.remaining j := by
  have hsum := sum_weight_goto (j := j) s c p
  have hdid : (s.goto c p).did = s.did := rfl
  rw [remaining, remaining, hdid]
  omega

theorem remaining_turn (hs : Inv j s) (h : Turn j s c t) : t.remaining j < s.remaining j := by
  cases h with
  | draws hc =>
    have hsum := sum_weight_goto (j := j) s c (.drawn (s.did + 1))
    have hdrawn : (Phase.drawn (s.did + 1)).weight j = if s.did + 1 < j.maxDid then 4 else 1 := rfl
    rw [hc, hdrawn, show Phase.loop.weight j = 2 from rfl] at hsum
    simp only [remaining]
    split_ifs at hsum <;> omega
  | leaves d hc _ =>
    apply remaining_goto
    rw [hc, Phase.weight, Phase.weight]
    split <;> omega
  | takes d hc hlt =>
    have hd : d < j.maxDid := lt_of_le_of_lt (hs.given c d (by rw [hc, Phase.number])).2 hlt
    apply remaining_goto
    rw [hc, Phase.weight, Phase.weight, if_pos hd]
    omega
  | indexes d hc =>
    have hlt : (s.goto c .loop).remaining j < s.remaining j := remaining_goto (by rw [hc]; exact Nat.lt_succ_self 2)
    exact hlt
  | fails d hc => exact remaining_goto (by rw [hc]; exact Nat.succ_pos _)

theorem run_length_le
    (h : Run (system j) ok initshared tr s) : tr.length ≤ 4 * j.nfiles + 2 * Fintype.card C := by
  have hle := h.length_le (remaining j)
    (fun v c w hv _ hstep =>
      ⟨hv.turn (step_turn hstep), remaining_turn hv (step_turn hstep)⟩) inv_initshared
  have hstart : (initshared : State C).remaining j = 4 * j.nfiles + Fintype.card C * 2 := by
    simp [remaining, initshared, Job.maxDid, Phase.weight]
  omega

/-- When no core can move, all have left the loop or some file could not be opened. -/
theorem finished_of_stuck (h : ∀ c, step j s c = none) : s.finished ∨ ∃ c d, s.phase c = .failed d := by
  by_cases hfail : ∃ c d, s.phase c = .failed d
  · exact .inr hfail
  left
  intro c
  have hc := h c
  have hdown : ¬ s.down j := fun hdown => hfail hdown.2
  rw [step, if_neg hdown] at hc
  cases hp : s.phase c with
  | loop => simp [hp] at hc
  | drawn d | indexing d =>
    simp only [hp] at hc
    split at hc <;> cases hc
  | done => rfl
  | failed d => exact absurd ⟨c, d, hp⟩ hfail

/-- A core that has the number of a document does not find the counter at the end:
the other cores have not added to it that often since. -/
def Prompt (j : Job) (s : State C) (c : C) : Prop :=
  ∀ d, s.phase c = .drawn d → d < j.maxDid → s.did < j.maxDid

def Kept (j : Job) (s : State C) : Prop :=
  ∀ d, 2 ≤ d → d ≤ s.did → d < j.maxDid →
    d ∈ s.indexed.map Prod.snd ∨ ∃ c, (s.phase c).number = some d

omit [Fintype C] in
theorem Kept.goto (hs : Kept j s)
    (hnum : ∀ d, d < j.maxDid → (s.phase c).number = some d → p.number = some d) : Kept j (s.goto c p) := by
  intro d h2 hle hlt
  refine (hs d h2 hle hlt).imp_right ?_
  rintro ⟨q, hq⟩
  by_cases hqc : q = c
  · subst hqc
    exact ⟨q, by simpa [goto] using hnum d hlt hq⟩
  · exact ⟨q, by simpa [State.goto, hqc] using hq⟩

omit [Fintype C] in
theorem Kept.turn (hs : Kept j s) (hok : Prompt j s c) (h : Turn j s c t) : Kept j t := by
  cases h with
  | draws hc =>
    intro d h2 hle hlt
    rcases Nat.lt_or_eq_of_le hle with hold | rfl
    · have hgoto : Kept j (s.goto c (.drawn (s.did + 1))) := hs.goto fun d _ h => by simp [hc, Phase.number] at h
      exact hgoto d h2 (Nat.lt_succ_iff.mp hold) hlt
    · exact .inr ⟨c, by simp [State.goto, Phase.number]⟩
  | leaves d hc hle =>
    refine hs.goto fun x hx h => ?_
    rw [hc, Phase.number, some.injEq] at h
    exact absurd (hok d hc (h ▸ hx)) (not_lt.mpr hle)
  | takes d hc _ | fails d hc => exact hs.goto fun x _ h => by rwa [hc] at h
  | indexes d hc =>
    intro x h2 hle hlt
    rw [map_append, mem_append]
    rcases hs x h2 hle hlt with hlog | ⟨q, hq⟩
    · exact .inl (.inl hlog)
    · by_cases hqc : q = c
      · subst hqc
        rw [hc, Phase.number, some.injEq] at hq
        exact .inl (.inr (by simp [hq]))
      · exact .inr ⟨q, by simpa [State.goto, hqc] using hq⟩

theorem kept_of_reachable (h : Reachable (system j) (Prompt j) s) : Kept j s := by
  refine h.invariant (I := Kept j) ?_ fun _ _ _ _ hs hok hstep => hs.turn hok (step_turn hstep)
  rintro _ rfl d h2 hle
  have hone : d ≤ 1 := hle
  omega

/-- In every run no document is indexed twice and no other number is. When in addition
no core is overtaken before its second read of the counter, every document but the
first has been indexed once all cores are through. -/
theorem indexed_once [Nonempty C] (j : Job) :
    (∀ s : State C, Reachable (system j) (fun _ _ => True) s →
      ∀ d, s.timesIndexed d ≤ 1 ∧ (0 < s.timesIndexed d → 2 ≤ d ∧ d < j.maxDid)) ∧
    ∀ s : State C, Reachable (system j) (Prompt j) s → s.finished →
      ∀ d, d ≠ 1 → 1 ≤ d → d < j.maxDid → s.timesIndexed d = 1 := by
  refine ⟨fun s h => timesIndexed_le h, fun s h hfin d hne hpos hlt => ?_⟩
  · obtain ⟨c⟩ := ‹Nonempty C›
    have hend : j.maxDid ≤ s.did := (inv_of_reachable h).left c (hfin c)
    have hmem : d ∈ s.indexed.map Prod.snd := by
      rcases kept_of_reachable h d (by omega) (by omega) hlt with hlog | ⟨q, hq⟩
      · exact hlog
      · rw [hfin q] at hq
        exact nomatch hq
    have hle := (timesIndexed_le h d).1
    have := count_pos_iff.mpr hmem
    exact le_antisymm hle this

instance (j : Job) (s : State C) (c : C) : Decidable (Prompt j s c) :=
  match h : s.phase c with
  | .drawn d => decidable_of_iff (d < j.maxDid → s.did < j.maxDid) (by simp [Prompt, h])
  | .loop | .indexing _ | .done | .failed _ => .isTrue (by simp [Prompt, h])

instance (s : State C) : Decidable s.finished := inferInstanceAs (Decidable (∀ c, s.phase c = .done))

def threeFiles : Job := ⟨3, fun _ => true, true⟩

/-- Two cores on three files: the second and the third document are indexed. -/
theorem indexed_once_threeFiles :
    ∃ s : State (Fin 2), Reachable (system threeFiles) (Prompt threeFiles) s ∧ s.finished ∧
      s.timesIndexed 2 = 1 ∧ s.timesIndexed 3 = 1 := by
  have hrun : ∃ s : State (Fin 2), Reachable (system threeFiles) (Prompt threeFiles) s ∧ s.finished :=
    exists_reachable _ _ finished [0, 1, 0, 1, 0, 1, 0, 0, 1, 1] rfl (by decide +kernel)
  obtain ⟨s, hs, hfin⟩ := hrun
  have h := (indexed_once (C := Fin 2) threeFiles).2 s hs hfin
  exact ⟨s, hs, hfin, h 2 (by decide) (by decide) (by decide), h 3 (by decide) (by decide) (by decide)⟩

/-- Every run ends: it takes at most four steps for each file and two for each core, and where no core
can go on, all have left the loop or a file could not be opened. -/
theorem dofiles_ends (j : Job) (tr : List (State C × C)) (s : State C)
    (h : Run (system j) (fun _ _ => True) initshared tr s) :
    tr.length ≤ 4 * j.nfiles + 2 * Fintype.card C ∧
      ((∀ c, step j s c = none) → s.finished ∨ ∃ c d, s.phase c = .failed d) :=
  ⟨run_length_le h, finished_of_stuck⟩

theorem dofiles_ends_threeFiles :
    ∃ (tr : _) (s : State (Fin 2)), Run (system threeFiles) (fun _ _ => True) initshared tr s ∧ s.finished ∧ tr.length ≤ 16 := by
  obtain ⟨s, ⟨_, tr, rfl, hrun⟩, hfin⟩ := exists_reachable (system threeFiles) (fun _ _ => True) (finished (C := Fin 2))
    [0, 1, 0, 1, 0, 1, 0, 0, 1, 1] rfl (by decide +kernel)
  exact ⟨tr, s, hrun, hfin, (dofiles_ends threeFiles tr s hrun).1⟩

/-- One core never indexes the first document. Of two cores on two files the one that
adds first can be overtaken, and then the second document is lost as well. -/
theorem documents_missed :
    (∃ s : State (Fin 1), Reachable (system ⟨1, fun _ => true, true⟩) (fun _ _ => True) s ∧
      s.finished ∧ s.timesIndexed 1 = 0) ∧
    ∃ s : State (Fin 2), Reachable (system ⟨2, fun _ => true, true⟩) (fun _ _ => True) s ∧
      s.finished ∧ s.timesIndexed 2 = 0 := by
  constructor
  · exact exists_reachable _ _ (fun s : State (Fin 1) => s.finished ∧ s.timesIndexed 1 = 0) [0, 0] rfl (by decide +kernel)
  · exact exists_reachable _ _ (fun s : State (Fin 2) => s.finished ∧ s.timesIndexed 2 = 0) [0, 1, 0, 1] rfl (by decide +kernel)

end Mosbench.Psearchy.Dofiles
