import Mosbench.Lib.Tally
import Mosbench.Metis.BucketLaws
import Mosbench.Metis.Runs

/-!
What becomes of the pairs of a map-only application. At the end of its map phase a worker hands its
pairs over to `map_out` of appendbktmgr.c. What mr_run_scheduler returns is merged from the reduce
buckets, which nobody has filled: rbkts_set_elems, which would, is called from nowhere.
-/
namespace Mosbench.Metis.Runs

open List Option Transition State

variable {p : Params S K V R} {s : State S K V R}

structure HasBuckets (p : Params S K V R) (m : Mapper (KvArr K V)) : Prop where
  mapCols : m.mapCols = 1
  bucket : ∀ row < p.nrCpus, ∃ b, m.bucket row 0 = some b ∧ b.Sound

namespace HasBuckets

theorem setBucket (h : HasBuckets p m) (hrow : row < p.nrCpus) (hb : b.Sound) :
    HasBuckets p (m.setBucket row 0 b) := by
  refine ⟨h.mapCols, fun r hr => ?_⟩
  by_cases heq : r = row
  · subst heq
    obtain ⟨b', hb', -⟩ := h.bucket r hr
    exact ⟨b, bucket_setBucket_self hb' b, hb⟩
  · obtain ⟨b', hb', hsound⟩ := h.bucket r hr
    refine ⟨b', ?_, hsound⟩
    rw [Mapper.bucket] at hb' ⊢
    simpa [Mapper.setBucket, Function.update_of_ne heq] using hb'

theorem appendAt (h : HasBuckets p m) (hrow : row < p.nrCpus) (kv : KeyVal K V) :
    ∃ m' bnewkey, appendAt m row kv = some (m', bnewkey) ∧ HasBuckets p m' := by
  obtain ⟨b, hb, hsound⟩ := h.bucket row hrow
  obtain ⟨b', hinsert, hsound', -⟩ := KvArr.insertKv_spec hsound kv
  refine ⟨m.setBucket row 0 b', true, ?_, h.setBucket hrow hsound'⟩
  rw [Metis.appendAt, Mapper.change, h.mapCols, Nat.mod_one, hb, bind_some, hinsert, map_some]

end HasBuckets

structure Mapping (p : Params S K V R) (st : Store K V R) : Prop where
  clean : Clean st
  serves : Serves p st
  mapper : ∃ m, st.append.mapper = some m ∧ HasBuckets p m
  rbkts : st.rbkts = fun _ => []
  nbkts : st.nbkts = p.nrCpus

namespace Mapping

variable (hp : p.atype = .maponly)

include hp

theorem mapPut (h : Mapping p st) (hrow : row < p.nrCpus) (kv : KeyVal K V) :
    ∃ st', mapPut p st row kv = some st' ∧ Mapping p st' := by
  obtain ⟨m, hm, hbuckets⟩ := h.mapper
  obtain ⟨m', bnewkey, happend, hbuckets'⟩ := hbuckets.appendAt hrow kv
  have hinsert : insert p st row kv = some ({ st with append := { st.append with mapper := some m' } }, bnewkey) := by
    rw [insert, if_pos hp, withMapper_eq hm happend, map_some]
  refine ⟨_, by rw [Runs.mapPut, hinsert, map_some], ?_⟩
  exact ⟨{ h.clean with }, h.serves, ⟨m', rfl, hbuckets'⟩, h.rbkts, h.nbkts⟩

theorem mapWorkerFinished (h : Mapping p st) (hrow : row < p.nrCpus) :
    ∃ st', mapWorkerFinished p st row = some st' ∧ Mapping p st' := by
  obtain ⟨m, hm, hbuckets⟩ := h.mapper
  obtain ⟨b, hb, -⟩ := hbuckets.bucket row hrow
  refine ⟨{ st with
    append := { st.append with mapper := some (m.setBucket row 0 .init) }
    mapOut := Function.update st.mapOut row b }, ?_, { h.clean with }, h.serves,
    ⟨_, rfl, hbuckets.setBucket hrow Arr.sound_init⟩, h.rbkts, h.nbkts⟩
  rw [Runs.mapWorkerFinished, if_pos hp, if_neg (by simp [h.clean.bsampling]), mapPrepareMerge, hm, bind_some,
    if_pos hbuckets.mapCols, hb, map_some]

omit hp in
theorem merge (h : Mapping p st) : ∃ st', merge p st = some (st', []) := by
  obtain ⟨n, hn⟩ := Nat.exists_eq_add_one_of_ne_zero p.nrCpus_pos.ne'
  have hcolls : (range st.nbkts).map st.rbkts = [] :: replicate n [] := by
    rw [h.rbkts, h.nbkts, map_const', length_range, hn, replicate_succ]
  have hflatten : ([] :: replicate n ([] : List R)).flatten = [] := by simp
  have hseq : Psrs.Sequential p.nrCpus ([] :: replicate n ([] : List R)) := by
    refine .inr ?_
    rw [Psrs.totalLen_eq, hflatten]
    exact Nat.mul_pos (Nat.mul_pos p.nrCpus_pos p.nrCpus_pos) p.nrCpus_pos
  have hsort : p.qsort.sort [] = [] := perm_nil.mp (p.qsort.perm [])
  rw [Runs.merge, hcolls, Psrs.psrs_of_sequential p.qsort hseq (by rw [Psrs.totalLen_eq, hflatten, length_nil]; decide), hflatten, hsort]
  exact ⟨_, rfl⟩

end Mapping

def Worker.remaining : Worker K V → ℕ
  | .begin => 2
  | .idle => 1
  | .busy kvs => kvs.length + 2
  | .done => 0

def State.remaining (p : Params S K V R) (s : State S K V R) : ℕ :=
  match s.phase with
  | .map =>
    2 + ((List.range p.nrCpus).map fun row => (s.worker row).remaining).sum +
      (s.splits.map fun split => (p.kvs split).length + 2).sum
  | .merge => 1
  | _ => 0

structure MapOnly (p : Params S K V R) (s : State S K V R) : Prop where
  phase : s.phase = .map ∨ s.phase = .merge ∨ s.phase = .finished
  store : s.phase ≠ .finished → Mapping p s.store
  results : s.results = []

namespace MapOnly

theorem start (hp : p.atype = .maponly) : MapOnly p (start p .fresh) := by
  have hstart : Runs.start p .fresh = ⟨kvstInit p { Store.fresh with pool := some p.nrCpus } 1 p.nrCpus, .map, p.splits,
      [], fun _ => .begin, 0, 0, [], []⟩ := by
    simp only [Runs.start, if_pos hp]
    rfl
  rw [hstart]
  refine ⟨.inl rfl, fun _ => ?_, rfl⟩
  simp only [kvstInit, if_pos hp]
  refine ⟨⟨rfl, rfl, rfl, rfl, rfl, rfl⟩, ⟨_, rfl, le_rfl⟩, ⟨_, rfl, rfl, fun row hrow => ⟨.init, ?_, Arr.sound_init⟩⟩, rfl, rfl⟩
  simp [Mapper.bucket, hrow]

theorem remaining_map (hphase : s.phase = .map) :
    s.remaining p = 2 + ((range p.nrCpus).map fun row => (s.worker row).remaining).sum +
      (s.splits.map fun split => (p.kvs split).length + 2).sum := by
  rw [remaining, hphase]

theorem remaining_merge (hphase : s.phase = .merge) : s.remaining p = 1 := by
  rw [remaining, hphase]

theorem remaining_finished (hphase : s.phase = .finished) : s.remaining p = 0 := by
  rw [remaining, hphase]

theorem remaining_setWorker (hphase : s.phase = .map) (hrow : row < p.nrCpus) (w : Worker K V) (st' : Store K V R) :
    (s.setWorker row w st').remaining p + (s.worker row).remaining = s.remaining p + w.remaining := by
  have hworker : (s.setWorker row w st').worker = Function.update s.worker row w := rfl
  have hsum := Tally.sum_range_of_agree (f := fun r => (s.worker r).remaining)
    (g := fun r => ((s.setWorker row w st').worker r).remaining) hrow fun r hr => by
      rw [hworker, Function.update_of_ne hr]
  have hself : (s.setWorker row w st').worker row = w := by rw [hworker, Function.update_self]
  have hafter : (s.setWorker row w st').phase = .map := hphase
  have hsplits : (s.setWorker row w st').splits = s.splits := rfl
  rw [hself] at hsum
  rw [remaining_map hafter, remaining_map hphase, hsplits]
  omega

section

variable (hp : p.atype = .maponly)

include hp

theorem mapStep (h : MapOnly p s) (hphase : s.phase = .map) (hrow : row < p.nrCpus)
    (hdone : (s.worker row).isDone = false) :
    ∃ t, mapStep p s row = some t ∧ MapOnly p t ∧ t.remaining p < s.remaining p := by
  have hstore := h.store (by simp [hphase])
  have hnext : ∀ w st', Mapping p st' → MapOnly p (s.setWorker row w st') := fun w st' hst' =>
    ⟨.inl hphase, fun _ => hst', h.results⟩
  have hsum := remaining_setWorker (p := p) hphase hrow
  unfold Runs.mapStep
  cases hw : s.worker row with
  | begin =>
    have hlt := hsum .idle s.store
    rw [hw, Worker.remaining, Worker.remaining] at hlt
    refine ⟨s.setWorker row .idle s.store, ?_, hnext _ _ hstore, by omega⟩
    simp only [hstore.clean.mapWorkerInit, attempt]
  | idle =>
    cases hsplits : s.splits with
    | nil =>
      obtain ⟨st', hfin, hstore'⟩ := hstore.mapWorkerFinished hp hrow
      have hlt := hsum .done st'
      rw [hw, Worker.remaining, Worker.remaining] at hlt
      refine ⟨s.setWorker row .done st', ?_, hnext _ _ hstore', by omega⟩
      simp only [hfin, attempt]
    | cons split splits =>
      have hlt := hsum (.busy (p.kvs split)) s.store
      rw [hw, Worker.remaining, Worker.remaining] at hlt
      have hafter : (s.setWorker row (.busy (p.kvs split)) s.store).phase = .map := hphase
      refine ⟨{ s.setWorker row (.busy (p.kvs split)) s.store with splits := splits }, rfl,
        ⟨.inl hphase, fun _ => hstore, h.results⟩, ?_⟩
      rw [remaining_map (s := { s.setWorker row (.busy (p.kvs split)) s.store with splits := splits }) hphase]
      rw [remaining_map hafter, show (s.setWorker row (.busy (p.kvs split)) s.store).splits = split :: splits from hsplits,
        map_cons, sum_cons] at hlt
      dsimp only
      omega
  | busy pending =>
    cases pending with
    | nil =>
      have hlt := hsum .idle s.store
      rw [hw, Worker.remaining, Worker.remaining] at hlt
      refine ⟨s.setWorker row .idle s.store, ?_, hnext _ _ hstore, by simp at hlt; omega⟩
      simp only [hstore.clean.mapTaskFinished]
    | cons kv kvs =>
      obtain ⟨st', hput, hstore'⟩ := hstore.mapPut hp hrow kv
      have hlt := hsum (.busy kvs) st'
      rw [hw, Worker.remaining, Worker.remaining, length_cons] at hlt
      refine ⟨s.setWorker row (.busy kvs) st', ?_, hnext _ _ hstore', by omega⟩
      simp only [hput, attempt]
  | done => simp [hw, Worker.isDone] at hdone

theorem step (h : MapOnly p s) (hstep : step p s a = some t) :
    MapOnly p t ∧ t.remaining p < s.remaining p := by
  cases a with
  | work row =>
    simp only [Runs.step] at hstep
    split_ifs at hstep with hrow
    rcases h.phase with hphase | hphase | hphase
    · simp only [hphase] at hstep
      have hdone : (s.worker row).isDone = false := by
        cases hw : s.worker row with
        | done => simp [Runs.mapStep, hw] at hstep
        | _ => rfl
      obtain ⟨t', ht', hinv, hlt⟩ := h.mapStep hp hphase hrow.1 hdone
      obtain rfl := some.inj (ht'.symm.trans hstep)
      exact ⟨hinv, hlt⟩
    · simp [hphase] at hstep
    · simp [hphase] at hstep
  | advance =>
    simp only [Runs.step] at hstep
    rcases h.phase with hphase | hphase | hphase
    · rw [if_neg (by simp [hphase])] at hstep
      split_ifs at hstep with hdone
      simp only [advanceTo, hphase, if_pos hp, some.injEq] at hstep
      subst hstep
      refine ⟨⟨.inr (.inl rfl), fun _ => h.store (by simp [hphase]), h.results⟩, ?_⟩
      rw [remaining_map hphase, remaining_merge rfl]
      omega
    · rw [if_pos hphase] at hstep
      split_ifs at hstep
      obtain ⟨st', hmerge⟩ := (h.store (by simp [hphase])).merge
      rw [hmerge] at hstep
      obtain rfl := some.inj hstep
      refine ⟨⟨.inr (.inr rfl), fun hne => absurd rfl hne, rfl⟩, ?_⟩
      rw [remaining_merge hphase, remaining_finished rfl]
      decide
    · rw [if_neg (by simp [hphase])] at hstep
      split_ifs at hstep
      simp [advanceTo, hphase] at hstep

theorem enabled (h : MapOnly p s) (hphase : s.phase ≠ .finished) :
    ∃ a t, Runs.step p s a = some t := by
  have hserves := (h.store hphase).serves
  rcases h.phase with hmap | hmerge | hfin
  · by_cases hdone : ∀ row < p.nrCpus, (s.worker row).isDone = true
    · refine ⟨.advance, ?_⟩
      simp only [Runs.step, if_pos hdone, advanceTo, hmap]
      exact ⟨_, rfl⟩
    · simp only [not_forall, Bool.not_eq_true] at hdone
      obtain ⟨row, hrow, hbusy⟩ := hdone
      obtain ⟨t, ht, -⟩ := h.mapStep hp hmap hrow hbusy
      refine ⟨.work row, t, ?_⟩
      simp only [Runs.step, if_pos (And.intro hrow (hasThread_of_serves hserves hrow)), hmap, ht]
  · refine ⟨.advance, ?_⟩
    simp only [Runs.step, if_pos hmerge, if_pos (hasThread_of_serves hserves p.nrCpus_pos)]
    exact ⟨_, rfl⟩
  · exact absurd hfin hphase

theorem of_reachable (h : Reachable (system p .fresh) (fun _ _ => True) s) : MapOnly p s := by
  refine h.invariant (I := MapOnly p) (fun s₀ hs₀ => ?_) fun _ _ _ _ hinv _ hstep => (hinv.step hp hstep).1
  rw [show s₀ = Runs.start p .fresh from hs₀]
  exact start hp

end

end MapOnly

/-- A map-only run never gets stuck and comes to an end. The final result is what was emitted
exactly if no pair is emitted. -/
theorem maponly_result (p : Params S K V (KeyVal K V)) (hp : p.atype = .maponly)
    {s : State S K V (KeyVal K V)} (h : Reachable (system p .fresh) (fun _ _ => True) s) :
    s.phase ≠ .crashed ∧ (s.phase ≠ .finished → ∃ a t, step p s a = some t) ∧
      (∀ tr t, Run (system p .fresh) (fun _ _ => True) s tr t → tr.length ≤ s.remaining p) ∧
      (s.phase = .finished → (s.results.Perm p.emitted ↔ p.emitted = [])) := by
  have hinv := MapOnly.of_reachable hp h
  refine ⟨fun hcrash => ?_, hinv.enabled hp, fun tr t hrun => ?_, fun _ => ?_⟩
  · have := hinv.phase
    simp [hcrash] at this
  · have := hrun.length_le (I := MapOnly p) (remaining p) (fun _ _ _ hs _ hstep => hs.step hp hstep)
      hinv
    omega
  · rw [hinv.results, nil_perm]

def silent : Params ℕ ℕ ℕ (KeyVal ℕ ℕ) where
  nrCpus := 2
  nrCpus_pos := Nat.zero_lt_two
  splits := [1, 2, 3]
  splits_ne := by decide
  mapFunc _ := []
  partFunc k := k
  keyCmp := KeyComparator.difference.cmp
  atype := .maponly
  tasks := 0
  reduce _ _ := []
  outCmp := KeyComparator.difference.toComparator.comap KeyVal.key
  qsort := .insertion _

theorem maponly_result_silent :
    ∃ s, (Reachable (system silent .fresh) (fun _ _ => True) s ∧ s.phase = .finished) ∧
      s.results.Perm silent.emitted := by
  obtain ⟨s, hreach, hphase⟩ := exists_reachable (system silent .fresh) (fun _ _ => True) (fun s => s.phase = .finished)
    ([0, 1, 1, 0, 0, 1, 1, 1, 0, 1].map .work ++ [.advance, .advance]) rfl (by decide +kernel)
  exact ⟨s, ⟨hreach, hphase⟩, ((maponly_result silent rfl hreach).2.2.2 hphase).mpr rfl⟩

/-- Each split emits a pair, and the final result is empty. -/
theorem maponly_result_lost :
    ∃ s, Reachable (system { silent with mapFunc := fun split => [(split, 1)] } .fresh) (fun _ _ => True) s ∧
      s.phase = .finished ∧ s.results = [] ∧
      ({ silent with mapFunc := fun split => [(split, 1)] } : Params ℕ ℕ ℕ (KeyVal ℕ ℕ)).emitted =
        [⟨1, 1, 1⟩, ⟨2, 1, 2⟩, ⟨3, 1, 3⟩] := by
  obtain ⟨s, hreach, hphase, hresults⟩ := exists_reachable
    (system { silent with mapFunc := fun split => [(split, 1)] } .fresh) (fun _ _ => True)
    (fun s => s.phase = .finished ∧ s.results = [])
    ([0, 1, 1, 1, 0, 0, 0, 1, 1, 1, 1, 0, 1].map .work ++ [.advance, .advance]) rfl (by decide +kernel)
  exact ⟨s, hreach, hphase, hresults, by decide⟩

end Mosbench.Metis.Runs
