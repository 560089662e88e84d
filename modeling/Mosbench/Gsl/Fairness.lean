import Mosbench.Gsl.Crowd

/-!
Fairness of runs without upgrades and cancellation: the ungranted waiters form a first-in first-
out queue, and a later conflicting request finds the wait bit.
-/
namespace Mosbench.Gsl

open State List Option Links

def enqueuedBy (e : State P × (P × Act)) : Option P :=
  match (e.1.proc e.2.1).pc with
  | .enqueue _ => some e.2.1
  | _ => none

def grantedBy (e : State P × (P × Act)) : Option P :=
  match (e.1.proc e.2.1).pc with
  | .wakeSet _ _ q preCounts => if e.1.lock.c = preCounts then some q else none
  | _ => none

def Waits (s : State P) (W : List P) : Prop :=
  ∃ L, Chain s.cell .head L ∧ W = L.filter fun q => decide (∃ m, Queued s q m)

theorem grantedBy_eq_some (h : grantedBy (s, (p, a)) = some q) :
    ∃ caller prev, (s.proc p).pc = .wakeSet caller prev q s.lock.c := by
  unfold grantedBy at h
  split at h
  · next caller prev q' pre hpc =>
    split at h
    · next hc =>
      obtain rfl := some.inj h
      exact ⟨caller, prev, by rw [hpc, ← hc]⟩
    · cases h
  · cases h

theorem enqueuedBy_eq_some
    (h : enqueuedBy (s, (p, a)) = some q) : p = q ∧ ∃ mode, (s.proc p).pc = .enqueue mode := by
  unfold enqueuedBy at h
  split at h
  · next mode hpc => exact ⟨some.inj h, mode, hpc⟩
  · cases h

theorem Waits.unique (h : Waits s W) (h' : Waits s W') : W = W' := by
  obtain ⟨L, hL, rfl⟩ := h
  obtain ⟨L', hL', rfl⟩ := h'
  rw [hL.unique hL']

theorem Waits.nodup (h : Waits s W) : W.Nodup := by
  obtain ⟨L, hL, rfl⟩ := h
  exact hL.nodup.filter _

theorem Waits.congr (h : Waits s W) (hcell : t.cell = s.cell)
    (hqueued : ∀ x m, Queued t x m ↔ Queued s x m) : Waits t W := by
  obtain ⟨L, hL, rfl⟩ := h
  exact ⟨L, hcell ▸ hL, by simp only [hqueued]⟩

variable [DecidableEq P] [Fintype P] {s : State P} {prev : Cell P}

omit [DecidableEq P] in
theorem FairInvariant.exists_waits (h : FairInvariant table s) : ∃ W, Waits s W := by
  obtain ⟨L, hL⟩ := h.linked
  exact ⟨_, L, hL.chain, rfl⟩

omit [DecidableEq P] in
theorem FairInvariant.mem_waits (h : FairInvariant table s) (hW : Waits s W)
    (x : P) : x ∈ W ↔ ∃ m, Queued s x m := by
  obtain ⟨L, hL⟩ := h.linked
  obtain rfl := hW.unique ⟨L, hL.chain, rfl⟩
  rw [mem_filter, decide_eq_true_iff]
  constructor
  · intro hx
    exact hx.2
  · intro hx
    obtain ⟨m, hm⟩ := hx
    exact ⟨hL.complete x m hm, m, hm⟩

theorem no_event_of_quiet (hs : Basic table s) (hstep : step table s (p, a) = some t)
    (hq : Quiet s t) : enqueuedBy (s, (p, a)) = none ∧ grantedBy (s, (p, a)) = none := by
  constructor
  · by_contra hsome
    obtain ⟨q, hsome⟩ := ne_none_iff_exists'.mp hsome
    obtain ⟨-, mode, hpc⟩ := enqueuedBy_eq_some hsome
    have ht : t = enqueue s p mode := by
      cases a <;> simp [step, run, hpc] at hstep
      exact hstep.symm
    have hnew := ((queued_enqueue hs hpc).2 mode).mpr rfl
    rw [← ht, hq.queued] at hnew
    exact not_queued (by rw [hpc]; rfl) mode hnew
  · by_contra hsome
    obtain ⟨q, hsome⟩ := ne_none_iff_exists'.mp hsome
    obtain ⟨caller, prev, hpc⟩ := grantedBy_eq_some hsome
    have ht : t = (grant s q s.lock.c).setPc p (.wakeUnlink caller prev q) := by
      cases a <;> simp [step, run, hpc] at hstep
      exact hstep.symm
    have hold := hs.queued_target hpc
    rw [← hq.queued, ht, queued_grant hpc] at hold
    exact hold.2 rfl

omit [DecidableEq P] in
theorem FairInvariant.first (h : FairInvariant table s) (hL : Chain s.cell .head L)
    (hpc : (s.proc p).pc = .wakeSet caller prev q s.lock.c ∨
      (s.proc p).pc = .wakeUnlink caller prev q) : ∃ L', L = q :: L' := by
  have hhead : prev = .head := by
    rcases hpc with hpc | hpc <;> exact h.fairState.head p prev (by rw [hpc]; rfl)
  obtain ⟨M, hM⟩ := h.basic.queue
  obtain rfl := hM.chain.unique hL
  have hpos : ∃ L₁ L₂, M = L₁ ++ q :: L₂ ∧ prev = lastCell .head L₁ := by
    have hpos := hM.position p
    rcases hpc with hpc | hpc <;> rw [hpc] at hpos
    · exact hpos.2
    · exact hpos
  obtain ⟨L₁, L₂, rfl, hprev⟩ := hpos
  have hnil : L₁ = [] := lastCell_eq_head (hprev.symm.trans hhead)
  exact ⟨L₂, by rw [hnil]; rfl⟩

section

variable (hI : FairInvariant table s)

include hI

theorem Waits.enqueue (hW : Waits s W)
    (hpc : (s.proc p).pc = .enqueue mode) : Waits (enqueue s p mode) (W ++ [p]) := by
  obtain ⟨L, hL⟩ := hI.linked
  obtain rfl := hW.unique ⟨L, hL.chain, rfl⟩
  obtain ⟨hother, hself⟩ := queued_enqueue hI.basic hpc
  have hp : p ∉ L := by
    intro hmem
    obtain ⟨M, hM⟩ := hI.basic.queue
    obtain rfl := hM.chain.unique hL.chain
    obtain ⟨m, hm⟩ := hI.basic.listed_queued hM (p := p) (by rw [hpc]; rfl) (by rw [hpc]; rfl) hmem
    exact not_queued (by rw [hpc]; rfl) m hm
  have hfresh := hI.fairState.fresh p mode (by rw [hpc]; rfl)
  refine ⟨L ++ [p], hL.enqueue_fair hp mode (by simp [holdLock, hfresh, lcNonZero]), ?_⟩
  rw [filter_append]
  congr 1
  · refine filter_congr ?_
    intro x hx
    have hxp : x ≠ p := fun hxp => hp (hxp ▸ hx)
    simp only [hother x hxp]
  · simp [hself]

theorem Waits.grant (hW : Waits s W)
    (hpc : (s.proc p).pc = .wakeSet caller prev q s.lock.c) :
    ∃ W', W = q :: W' ∧ Waits ((grant s q s.lock.c).setPc p (.wakeUnlink caller prev q)) W' := by
  obtain ⟨L, hL, rfl⟩ := hW
  obtain ⟨L', rfl⟩ := hI.first hL (.inl hpc)
  have hnodup := nodup_cons.mp hL.nodup
  refine ⟨L'.filter fun x => decide (∃ m, Queued s x m), ?_, q :: L', by simpa using hL, ?_⟩
  · rw [filter_cons_of_pos]
    exact decide_eq_true ⟨_, hI.basic.queued_target hpc⟩
  · rw [filter_cons_of_neg (by simp [queued_grant hpc])]
    refine filter_congr ?_
    intro x hx
    have hxq : x ≠ q := fun hxq => hnodup.1 (hxq ▸ hx)
    simp [queued_grant hpc, hxq]

theorem Waits.unlink (hW : Waits s W)
    (hpc : (s.proc p).pc = .wakeUnlink caller prev q) :
    Waits ((unlink s prev q).setPc p (.wake caller prev)) W := by
  obtain ⟨L, hL⟩ := hI.linked
  obtain rfl := hW.unique ⟨L, hL.chain, rfl⟩
  obtain ⟨L', rfl⟩ := hI.first hL.chain (.inr hpc)
  have hhead : prev = .head := hI.fairState.head p prev (by rw [hpc]; rfl)
  have hchain : Chain s.cell .head ([] ++ q :: L') := hL.chain
  refine ⟨L', ?_, ?_⟩
  · rw [setPc_cell, unlink_cell, hhead]
    exact hchain.unlink
  · have hgone : ∀ m, ¬ Queued s q m := hL.unlinked p q (by rw [hpc]; rfl)
    rw [filter_cons_of_neg (by simpa using hgone)]
    simp only [queued_unlink hpc]

theorem Waits.step (hW : Waits s W)
    (hstep : step table s (p, a) = some t) : ∃ W', Waits t W' ∧
      W ++ (enqueuedBy (s, (p, a))).toList = (grantedBy (s, (p, a))).toList ++ W' := by
  have hok := (hI.fairState.stepOk (p, a)).1
  cases (trans_of_step hstep).queueStep hok with
  | silent hq _ =>
    obtain ⟨henq, hgrant⟩ := no_event_of_quiet hI.basic hstep hq.toQuiet
    refine ⟨W, hW.congr hq.cell hq.queued, ?_⟩
    rw [henq, hgrant]
    simp
  | @publish mode hpc =>
    have hq : Quiet s _ := .publish (c := undoCounts mode s.lock.c) hpc
    refine ⟨W, hW.congr hq.cell hq.queued, ?_⟩
    simp [enqueuedBy, grantedBy, hpc]
  | enqueue hpc =>
    refine ⟨W ++ [p], hW.enqueue hI hpc, ?_⟩
    simp [enqueuedBy, grantedBy, hpc]
  | grant hpc =>
    obtain ⟨W', rfl, hW'⟩ := hW.grant hI hpc
    refine ⟨W', hW', ?_⟩
    simp [enqueuedBy, grantedBy, hpc]
  | unlink hpc =>
    refine ⟨W, hW.unlink hI hpc, ?_⟩
    simp [enqueuedBy, grantedBy, hpc]
  | cancel hpc _ _ _ =>
    have hcalm := hI.fairState.calm p
    rw [hpc] at hcalm
    cases hcalm

end

theorem waits_of_run (hs₀ : Initial s₀) (h : Transition.Run (system table) FairStep s₀ tr s) :
    ∃ W, Waits s W ∧ tr.filterMap enqueuedBy = tr.filterMap grantedBy ++ W := by
  induction h with
  | nil =>
    refine ⟨[], ⟨[], ?_, rfl⟩, rfl⟩
    rw [chain_nil, State.cell, hs₀.lock]
    rfl
  | @snoc s t tr a hprev hok hstep ih =>
    obtain ⟨W, hW, htr⟩ := ih
    obtain ⟨W', hW', hone⟩ :=
      hW.step (fairInvariant_of_reachable ⟨s₀, tr, hs₀, hprev⟩) (p := a.1) (a := a.2) hstep
    refine ⟨W', hW', ?_⟩
    rw [filterMap_append, filterMap_append, htr]
    simp only [filterMap_cons, filterMap_nil]
    rw [append_assoc, append_assoc]
    exact congrArg (filterMap grantedBy tr ++ ·) hone

/-! A later conflicting request stays behind. -/

def Pc.requesting : Pc P → Option Mode
  | .acqGet mode | .acqSet mode _ | .acqMutex mode | .undoGet mode | .undoSet mode _
  | .enqueue mode => some mode
  | _ => none

omit [DecidableEq P] [Fintype P] in
theorem Pc.queued_of_requesting {pc : Pc P} (h : pc.requesting = some n) : pc.queued = none := by
  cases pc <;> first | rfl | cases h

/-- `p` waits for `m` and `q` has asked for `n`; once `q` has queued, `p` stands before it. -/
structure Behind (s : State P) (p : P) (m : Mode) (q : P) (n : Mode) : Prop where
  published : Published s p m
  place : (s.proc q).pc.requesting = some n ∨ Queued s q n ∧ ∃ W, Waits s W ∧ [p, q].Sublist W

theorem Published.step (hI : FairInvariant table s) (h : Published s p m)
    (hstep : step table s (x, a) = some t) :
    Published t p m ∨ Grants table s x p m := by
  cases (trans_of_step hstep).queueStep (hI.fairState.stepOk (x, a)).1 with
  | silent hq _ => exact .inl ((hq.published p m).mpr h)
  | publish hpc =>
    have hpx : p ≠ x := by
      intro hpx
      rw [hpx, Published, hpc] at h
      exact absurd h.1 (by simp [Pc.published, Pc.queued])
    left
    rw [Published, setPc_proc_of_ne _ hpx]
    exact h
  | enqueue hpc => exact .inl ((published_enqueue hpc p m).mpr h)
  | @grant caller prev q hpc =>
    by_cases hpq : p = q
    · right
      subst q
      have hqueued := hI.basic.queued_of_published (p := x) (by rw [hpc]; rfl) (by simp [hpc]) h
      rw [← ((hI.basic.proc p).want m hqueued.1).1]
      exact .wake hpc
    · left
      exact (published_grant hpc p m).mpr ⟨h, hpq⟩
  | unlink hpc => exact .inl ((published_unlink hpc p m).mpr h)
  | cancel hpc _ _ _ =>
    have hcalm := hI.fairState.calm x
    rw [hpc] at hcalm
    cases hcalm

omit [DecidableEq P] in
theorem Published.not_free (hlen : conflicts.length ≤ 8)
    (hs : Basic table s) (hc : CountsAre s (waitBits s)) (hcard : Fintype.card P < 2 ^ 15)
    (h : Published s p m) (hconf : Conflicts conflicts n m)
    (hzero : (s.proc q).holding = 0#128) :
    conflictFree (lcInitConflictTable conflicts) (s.proc q) n s.lock.c = false := by
  by_contra hfree
  have hmask := (mask_free_iff hlen hc hs hcard n (!holdLock (s.proc q))).mp
    (by simpa [conflictFree] using hfree)
  have hbit := (hmask m hconf).2 (by simp [holdLock, hzero, lcNonZero])
  exact of_decide_eq_false hbit ⟨p, h⟩

omit [DecidableEq P] [Fintype P] in
theorem not_first_of_sublist (hnodup : W.Nodup) (hpq : p ≠ q)
    (h : [p, q].Sublist W) (W' : List P) : W ≠ q :: W' := by
  intro hW
  rw [hW] at h hnodup
  have hrest : [p, q].Sublist W' := by
    cases h with
    | cons _ h => exact h
    | cons_cons _ h => exact absurd rfl hpq
  exact (nodup_cons.mp hnodup).1 (hrest.subset (by simp))

namespace Behind

theorem not_grants (hlen : conflicts.length ≤ 8)
    (hI : FairInvariant (lcInitConflictTable conflicts) s) (hc : CountsAre s (waitBits s))
    (hcard : Fintype.card P < 2 ^ 15) (hconf : Conflicts conflicts n m) (hpq : p ≠ q)
    (h : Behind s p m q n) (x : P) : ¬ Grants (lcInitConflictTable conflicts) s x q n := by
  intro hgrants
  cases hgrants with
  | fast hpc hfree =>
    rcases h.place with hreq | ⟨hqueued, -⟩
    · rcases hpc with hpc | hpc
      · rw [hpc] at hreq
        cases hreq
      · have hzero := hI.fairState.fresh q n (by rw [hpc]; rfl)
        rw [h.published.not_free hlen hI.basic hc hcard hconf hzero] at hfree
        cases hfree
    · refine not_queued ?_ n hqueued
      rcases hpc with hpc | hpc <;> rw [hpc] <;> rfl
  | @wake caller prev q hpc =>
    rcases h.place with hreq | ⟨-, W, hW, hsub⟩
    · exact not_queued (Pc.queued_of_requesting hreq) _ (hI.basic.queued_target hpc)
    · obtain ⟨W', hfirst, -⟩ := hW.grant hI hpc
      exact not_first_of_sublist hW.nodup hpq hsub W' hfirst

theorem request (hI : FairInvariant table s) (hpq : p ≠ q) (hpub : Published s p m)
    (hreq : (s.proc q).pc.requesting = some n)
    (hstep : step table s (q, a) = some t) (hnot : ¬ Grants table s q q n) :
    (t.proc q).pc.requesting = some n ∨ Queued t q n ∧ ∃ W, Waits t W ∧ [p, q].Sublist W := by
  cases trans_of_step hstep with
  | move hm =>
    left
    rw [setPc_proc_self]
    cases hm <;> simp_all [Pc.requesting]
  | fail hpc _ | fastTry hpc | grant hpc | unlink hpc | resume hpc _ | release hpc
  | cancelGranted hpc _ | cancelQueued hpc _ _ _ =>
    rw [hpc] at hreq
    cases hreq
  | enter _ he =>
    left
    rw [setPc_proc_self]
    generalize (s.proc q).pc = old at he hreq
    cases he <;> exact hreq
  | leave hl =>
    generalize (s.proc q).pc = old at hl hreq
    cases hl <;> cases hreq
  | fast hpc hfree =>
    rw [hpc] at hreq
    obtain rfl := some.inj hreq
    exact absurd (.fast (.inr hpc) hfree) hnot
  | raise hpc _ | undo hpc =>
    left
    rw [hpc] at hreq
    rw [setPc_proc_self]
    exact hreq
  | @enqueue mode hpc =>
    right
    rw [hpc] at hreq
    obtain rfl := some.inj hreq
    obtain ⟨W, hW⟩ := hI.exists_waits
    have hqueued : Queued s p m := by
      refine hpub.cases.resolve_right ?_
      intro hp
      exact hpq (hI.basic.owner_unique (by rw [hp]; rfl) (by rw [hpc]; rfl))
    have hmem : p ∈ W := (hI.mem_waits hW p).mpr ⟨m, hqueued⟩
    refine ⟨((queued_enqueue hI.basic hpc).2 mode).mpr rfl, W ++ [q], hW.enqueue hI hpc, ?_⟩
    exact (singleton_sublist.mpr hmem).append (List.Sublist.refl [q])

theorem queue (hI : FairInvariant table s) (hI' : FairInvariant table t)
    (hqueued : Queued s q n) (hW : Waits s W) (hsub : [p, q].Sublist W)
    (hpub : Published s p m) (hstep : step table s (x, a) = some t)
    (hp : ¬ Grants table s x p m) (hq : ¬ Grants table s x q n) :
    Queued t q n ∧ ∃ W', Waits t W' ∧ [p, q].Sublist W' := by
  obtain ⟨W', hW', hone⟩ := hW.step hI hstep
  have hall : [p, q].Sublist ((grantedBy (s, (x, a))).toList ++ W') := by
    rw [← hone]
    exact hsub.trans (sublist_append_left ..)
  have hsub' : [p, q].Sublist W' := by
    cases hg : grantedBy (s, (x, a)) with
    | none => simpa [hg] using hall
    | some g =>
      obtain ⟨caller, prev, hpc⟩ := grantedBy_eq_some hg
      have hpg : p ≠ g := by
        intro hpg
        subst g
        have hpq := hI.basic.queued_of_published (p := x) (by rw [hpc]; rfl) (by simp [hpc]) hpub
        rw [← ((hI.basic.proc p).want m hpq.1).1] at hp
        exact hp (.wake hpc)
      rw [hg] at hall
      cases hall with
      | cons _ h => exact h
      | cons_cons _ _ => exact absurd rfl hpg
  obtain ⟨k, hk⟩ := (hI'.mem_waits hW' q).mp (hsub'.subset (by simp))
  have hpub' := (Published.step hI (.of_queued hqueued) hstep).resolve_right hq
  have hkn : k = n := some.inj ((Published.of_queued hk).1.symm.trans hpub'.1)
  exact ⟨hkn ▸ hk, W', hW', hsub'⟩

theorem step (hlen : conflicts.length ≤ 8)
    (hcard : Fintype.card P < 2 ^ 15) (hconf : Conflicts conflicts n m) (hpq : p ≠ q)
    (hreach : Transition.Reachable (system (lcInitConflictTable conflicts)) FairStep s)
    (h : Behind s p m q n) (hok : FairStep s (x, a))
    (hp : ¬ Grants (lcInitConflictTable conflicts) s x p m)
    (hstep : Gsl.step (lcInitConflictTable conflicts) s (x, a) = some t) :
    ¬ Grants (lcInitConflictTable conflicts) s x q n ∧ Behind t p m q n := by
  have hI := fairInvariant_of_reachable hreach
  have hI' := fairInvariant_of_reachable (hreach.step hok hstep)
  have hq := h.not_grants hlen hI (fair_waitBits hcard hreach) hcard hconf hpq x
  refine ⟨hq, (h.published.step hI hstep).resolve_right hp, ?_⟩
  rcases h.place with hreq | ⟨hqueued, W, hW, hsub⟩
  · by_cases hxq : x = q
    · subst x
      exact request hI hpq h.published hreq hstep hq
    · left
      rw [(trans_of_step hstep).pc_of_ne (Ne.symm hxq)]
      exact hreq
  · exact .inr (queue hI hI' hqueued hW hsub h.published hstep hp hq)

end Behind

/-- In runs without upgrades and cancellation the queued processes are granted
in the order in which they queued, for any number of processes: the grants are
an initial part of the enqueues, and the rest are the ones that still wait. With
fewer than 2^15 processes, one that starts a blocking request for `n` after
another has published its wait for a conflicting `m` is not granted `n` before
the other is granted `m`. -/
theorem granted_in_order {conflicts : List (BitVec 32)} (hsym : Symmetric conflicts) :
    (∀ (s₀ s : State P) tr, Initial s₀ →
      Transition.Run (system (lcInitConflictTable conflicts)) FairStep s₀ tr s →
      ∃ W, tr.filterMap enqueuedBy = tr.filterMap grantedBy ++ W ∧ W.Nodup ∧
        ∀ q, q ∈ W ↔ ∃ m, Queued s q m) ∧
    (Fintype.card P < 2 ^ 15 → ∀ (s t u : State P) p m q n tr,
      Transition.Reachable (system (lcInitConflictTable conflicts)) FairStep s →
      Published s p m → Conflicts conflicts m n → q ≠ p → FairStep s (q, .acquire n false) →
      step (lcInitConflictTable conflicts) s (q, .acquire n false) = some t →
      Transition.Run (system (lcInitConflictTable conflicts)) FairStep t tr u →
      (∀ e ∈ tr, ¬ Grants (lcInitConflictTable conflicts) e.1 e.2.1 p m) →
      ∀ e ∈ tr, ¬ Grants (lcInitConflictTable conflicts) e.1 e.2.1 q n) := by
  constructor
  · intro s₀ s tr hs₀ hrun
    obtain ⟨W, hW, htr⟩ := waits_of_run hs₀ hrun
    have hI := fairInvariant_of_reachable ⟨s₀, tr, hs₀, hrun⟩
    exact ⟨W, htr, hW.nodup, hI.mem_waits hW⟩
  · intro hcard s t u p m q n tr hreach hpub hconf hqp hok hstep hrun hp
    have ht := hreach.step hok hstep
    have hbehind : Behind t p m q n := by
      simp only [step, ite_none_right_eq_some, some.injEq, Bool.false_eq_true, if_false] at hstep
      obtain ⟨-, rfl⟩ := hstep
      refine ⟨?_, .inl (by rw [setPc_proc_self]; rfl)⟩
      rw [Published, setPc_proc_of_ne _ (Ne.symm hqp)]
      exact hpub
    have hall := hrun.guarantee
      (I := fun v => Transition.Reachable (system (lcInitConflictTable conflicts)) FairStep v ∧
        Behind v p m q n)
      (C := fun v a => ¬ Grants (lcInitConflictTable conflicts) v a.1 p m)
      (D := fun v a => ¬ Grants (lcInitConflictTable conflicts) v a.1 q n) ?_ ⟨ht, hbehind⟩ hp
    · exact hall.1
    · intro v a w hv hallowed hC hone
      obtain ⟨hD, hw⟩ := hv.2.step hsym.length_le hcard (hsym.symm _ _ hconf) (Ne.symm hqp) hv.1
        hallowed hC hone
      exact ⟨hD, hv.1.step hallowed hone, hw⟩

/-- Process 0 has handed its mode to process 1, and process 2 still waits. Process 0
asks again and stays behind process 2. -/
theorem granted_in_order_three : ∃ (s t : State (Fin 3)) (W : List (Fin 3)),
    Published s 2 0 ∧ (∃ tr : List (State (Fin 3) × (Fin 3 × Act)),
      tr.filterMap enqueuedBy = tr.filterMap grantedBy ++ W ∧ 2 ∈ W ∧ 1 ∉ W) ∧
    step (lcInitConflictTable [1#32]) s (0, .acquire 0 false) = some t ∧
    ∀ u tr, Transition.Run (system (lcInitConflictTable [1#32])) FairStep t tr u →
      (∀ e ∈ tr, ¬ Grants (lcInitConflictTable [1#32]) e.1 e.2.1 2 0) →
      ∀ e ∈ tr, ¬ Grants (lcInitConflictTable [1#32]) e.1 e.2.1 0 0 := by
  obtain ⟨s, hreach, hpub, hdone, hpc, hzero⟩ := Transition.exists_reachable
    (system (lcInitConflictTable [1#32])) FairStep
    (fun s => Queued s 2 0 ∧ (∀ m, ¬ Queued s 1 m) ∧ (s.proc 0).pc = .idle ∧
      (s.proc 0).holding = 0#128)
    ([((0 : Fin 3), .acquire 0 false), (0, .run), (0, .run), (1, .acquire 0 false)] ++
      replicate 8 (1, .run) ++ [(2, .acquire 0 false)] ++ replicate 8 (2, .run) ++
      [(0, .release 0)] ++ replicate 9 (0, .run))
    fresh_initial (by decide +kernel)
  obtain ⟨s₀, tr, hs₀, hrun⟩ := id hreach
  obtain ⟨hfifo, hbehind⟩ := granted_in_order (P := Fin 3) (show Symmetric [1#32] by decide)
  obtain ⟨W, htr, -, hW⟩ := hfifo s₀ s tr hs₀ hrun
  have hstep : step (lcInitConflictTable [1#32]) s (0, .acquire 0 false) =
      some (s.setPc 0 (.acqGet 0)) := by
    simp [step, hpc, hzero, lcGetActive]
  refine ⟨s, _, W, .of_queued hpub, ⟨tr, htr, (hW 2).mpr ⟨0, hpub⟩, ?_⟩, hstep, ?_⟩
  · intro hmem
    obtain ⟨m, hm⟩ := (hW 1).mp hmem
    exact hdone m hm
  · intro u tr hrun'
    exact hbehind (by decide) s _ u 2 0 0 0 tr hreach (.of_queued hpub) (by decide) (by decide)
      ⟨by simp [NoCancel], fun _ _ _ => hzero⟩ hstep hrun'

omit [DecidableEq P] [Fintype P] in
theorem Grants.by_wake (h : Grants table s p q m) (hqp : q ≠ p) :
    ∃ caller prev, (s.proc p).pc = .wakeSet caller prev q s.lock.c := by
  cases h with
  | fast _ _ => exact absurd rfl hqp
  | wake hpc => exact ⟨_, _, hpc⟩

theorem Jam.overtaken (h : Jam s e a idle raised)
    (hx : x ∈ idle) (hopen : lcZero (lcAnd (lcSubtract s.lock.c 0#128)
      (lcConflictMask (lcInitConflictTable [2#32, 1#32]) 1 true true)) = true) :
    ∃ (s t u : State P) (tr : List (State P × (P × Act))),
      Transition.Reachable (system (lcInitConflictTable [2#32, 1#32])) FairStep s ∧
      Published s a 0 ∧ FairStep s (x, .acquire 1 false) ∧
      step (lcInitConflictTable [2#32, 1#32]) s (x, .acquire 1 false) = some t ∧
      Transition.Run (system (lcInitConflictTable [2#32, 1#32])) FairStep t tr u ∧
      (∀ e ∈ tr, ¬ Grants (lcInitConflictTable [2#32, 1#32]) e.1 e.2.1 a 0) ∧
      ∃ e ∈ tr, Grants (lcInitConflictTable [2#32, 1#32]) e.1 e.2.1 x 1 := by
  have hnodup := h.nodup
  simp only [nodup_cons, mem_cons, mem_append, not_or] at hnodup
  obtain ⟨⟨hea, hei, her⟩, ⟨hai, har⟩, -⟩ := hnodup
  have hxe : x ≠ e := fun hxe => hei (hxe ▸ hx)
  have hxa : x ≠ a := fun hxa => hai (hxa ▸ hx)
  have hpc := h.idle_pc x hx
  have hzero := (h.plain x hxe).1
  have hwait : Published s a 0 := by
    have hsleep := ((h.rest a).resolve_left (Ne.symm hea)).resolve_left hai |>.resolve_left har
    exact ⟨by rw [hsleep]; rfl, (h.plain a (Ne.symm hea)).2⟩
  have hactive : lcGetActive (0#128) 1 = 0 := by simp [lcGetActive]
  have hfree : conflictFree (lcInitConflictTable [2#32, 1#32]) (s.proc x) 1 s.lock.c = true := by
    rw [conflictFree, holdLock, hzero]
    exact hopen
  have hget : step (lcInitConflictTable [2#32, 1#32]) (s.setPc x (.acqGet 1)) (x, .run) =
      some (s.setPc x (.acqSet 1 s.lock.c)) := by
    simp [step, run, setPc_setPc]
  have hgrant : Grants (lcInitConflictTable [2#32, 1#32]) (s.setPc x (.acqSet 1 s.lock.c)) x x 1 := by
    refine .fast (.inr (by simp)) ?_
    rw [setPc_proc_self]
    exact hfree
  have hset : step (lcInitConflictTable [2#32, 1#32]) (s.setPc x (.acqSet 1 s.lock.c)) (x, .run) =
      some (acquired ((s.setPc x (.acqSet 1 s.lock.c)).setCounts
        (lcAdd s.lock.c (lcActive 1))) x 1) := by
    have hfree' : conflictFree (lcInitConflictTable [2#32, 1#32])
        { s.proc x with pc := .acqSet 1 s.lock.c } 1 s.lock.c = true := hfree
    simp [step, run, hfree']
  refine ⟨s, s.setPc x (.acqGet 1), _, _, h.reach, hwait, ⟨by simp [NoCancel], ?_⟩, ?_,
    (Transition.Run.single (fairStep_run _ x) hget).append
      (Transition.Run.single (fairStep_run _ x) hset), ?_,
    (s.setPc x (.acqSet 1 s.lock.c), (x, .run)), by simp, hgrant⟩
  · intro _ _ _
    exact hzero
  · simp [step, hpc, hzero, hactive]
  · intro v hv hgrants
    simp only [cons_append, nil_append, mem_cons, not_mem_nil, or_false] at hv
    rcases hv with rfl | rfl
    · obtain ⟨caller, prev, hwake⟩ := hgrants.by_wake (Ne.symm hxa)
      simp at hwake
    · obtain ⟨caller, prev, hwake⟩ := hgrants.by_wake (Ne.symm hxa)
      simp at hwake

/-- With 2^15 + 3 processes a request overtakes a conflicting waiter. The crowd
carries the count and the wait bit of mode 0 out of their lane, and a request for
mode 1 sees neither. -/
theorem overtaken_in_crowd : Symmetric [2#32, 1#32] ∧ Conflicts [2#32, 1#32] 0 1 ∧
    ∃ (s t u : State Crowd) (tr : List (State Crowd × (Crowd × Act))),
      Transition.Reachable (system (lcInitConflictTable [2#32, 1#32])) FairStep s ∧
      Published s (.inl true) 0 ∧ FairStep s (.inr none, .acquire 1 false) ∧
      step (lcInitConflictTable [2#32, 1#32]) s (.inr none, .acquire 1 false) = some t ∧
      Transition.Run (system (lcInitConflictTable [2#32, 1#32])) FairStep t tr u ∧
      (∀ e ∈ tr, ¬ Grants (lcInitConflictTable [2#32, 1#32]) e.1 e.2.1 (.inl true) 0) ∧
      ∃ e ∈ tr, Grants (lcInitConflictTable [2#32, 1#32]) e.1 e.2.1 (.inr none) 1 := by
  refine ⟨by decide, by decide, ?_⟩
  have hlen : crowd.length = 2 ^ 15 := by simp [crowd]
  have hopen : lcZero (lcAnd (lcSubtract (crowdCounts (2 ^ 15) 1) 0#128) (lcConflictMask
      (lcInitConflictTable [2#32, 1#32]) 1 true true)) = true := by decide +kernel
  obtain ⟨s, hs, hc⟩ := crowd_start
  obtain ⟨s, hs, hc⟩ := hs.raise_all crowd hc (by omega)
  rw [hlen, Nat.zero_add] at hc
  exact hs.overtaken (by simp) (by rw [hc]; exact hopen)

end Mosbench.Gsl
