import Mathlib.Data.List.Chain
import Mosbench.Pgload.Buffer

/-!
The bench worker of pgload.c, with batches. The state of the transaction goes on from one
batch to the next, while the buffers start again: a batch can begin inside a read-only block
that an earlier batch opened. The path for batch size 0, which sends its selects outside the
buffer, is left out.
-/
namespace Mosbench.Pgload

open List Decimal Fallible Bool

/-- What rand() returns for one query; the third number is drawn for a write only. -/
structure Draw where
  k : ℕ
  dist : ℕ
  v : ℕ
  v_lt : v < 2 ^ 31

def modInt (a b : ℤ) : Except Fault ℤ := if b = 0 then .error .divideByZero else .ok (a.tmod b)

def isWrite (opt : Opt) (draw : Draw) : Bool :=
  decide (((draw.dist % 100 : ℕ) : ℤ) < opt.randomwritepct)

/-- A turn of the loop over a batch. The update gets the key where its text has the value. -/
def addQuery (opt : Opt) (buf : QueryBuf) (draw : Draw) : Except Fault QueryBuf := do
  let k ← modInt draw.k opt.rows
  if isWrite opt draw then do
    let buf ← beginXaction buf .readWrite
    let table ← tableOfRow opt k
    let buf ← buf.addQ ⟨.commandOk, 0⟩ (.update table k draw.v)
    beginXaction buf .none
  else do
    let buf ← beginXaction buf .readOnly
    let table ← tableOfRow opt k
    buf.addQ ⟨.tuplesOk, 1⟩ (.select table k)

def sendBatch (opt : Opt) (answer : Statement → Expect) (worker : QueryBuf × List Sent)
    (batch : List Draw) : Except Fault (QueryBuf × List Sent) := do
  let buf ← batch.foldlM (addQuery opt) worker.1
  let res ← queryBufSend answer buf
  pure (res.1, worker.2 ++ res.2)

/-- What the worker sends until the shutdown, one list of draws for each batch. -/
def benchWorker (opt : Opt) (answer : Statement → Expect) (batches : List (List Draw)) :
    Except Fault (List Sent) := do
  let nQueries ← mulInt opt.batchsize 3
  let buf ← QueryBuf.init nQueries
  let start := if opt.implicitxactions then buf.setXaction .implicit else buf
  let worker ← batches.foldlM (sendBatch opt answer) (start, [])
  let buf ← beginXaction worker.1 .none
  let res ← queryBufSend answer buf
  pure (worker.2 ++ res.2)

inductive Block
  | reads (selects : List (List Char × ℤ))
  | write (table : List Char) (v k : ℤ)

def Block.statements : Block → List Statement
  | .reads selects => .beginReadOnly :: selects.map (fun q => .select q.1 q.2) ++ [.commit]
  | .write table v k => [.begin, .update table v k, .commit]

/-- A sequence of whole blocks: selects between BEGIN READ ONLY and COMMIT, or one update
between BEGIN and COMMIT. -/
def WellBracketed (stream : List Statement) : Prop :=
  ∃ blocks : List Block, stream = blocks.flatMap Block.statements

def Unclosed (stream : List Statement) : Prop :=
  ∃ (blocks : List Block) (selects : List (List Char × ℤ)), stream =
    blocks.flatMap Block.statements ++ .beginReadOnly :: selects.map fun q => .select q.1 q.2

def Stream : Bool → List Statement → Prop
  | false, stream => WellBracketed stream
  | true, stream => Unclosed stream

def stateOf : Bool → XactionState
  | false => .none
  | true => .readOnly

inductive IsQuery : Bool → Statement → Prop
  | write (table : List Char) (v k : ℤ) : IsQuery true (.update table v k)
  | read (table : List Char) (k : ℤ) : IsQuery false (.select table k)

def emit (opened write : Bool) (q : Statement) : List Statement :=
  if write then bracket (stateOf opened) .readWrite ++ [q, .commit]
  else bracket (stateOf opened) .readOnly ++ [q]

theorem WellBracketed.append_block (h : WellBracketed stream)
    (block : Block) : WellBracketed (stream ++ block.statements) := by
  obtain ⟨blocks, rfl⟩ := h
  refine ⟨blocks ++ [block], ?_⟩
  rw [flatMap_append, flatMap_singleton]

theorem WellBracketed.open (h : WellBracketed stream) : Unclosed (stream ++ [.beginReadOnly]) := by
  obtain ⟨blocks, rfl⟩ := h
  exact ⟨blocks, [], rfl⟩

theorem Unclosed.select (h : Unclosed stream) (table : List Char)
    (k : ℤ) : Unclosed (stream ++ [.select table k]) := by
  obtain ⟨blocks, selects, rfl⟩ := h
  exact ⟨blocks, selects ++ [(table, k)], by simp⟩

theorem Unclosed.commit (h : Unclosed stream) : WellBracketed (stream ++ [.commit]) := by
  obtain ⟨blocks, selects, rfl⟩ := h
  exact ⟨blocks ++ [.reads selects], by simp [Block.statements]⟩

theorem Stream.emit (h : Stream opened stream) (hq : IsQuery write q) :
    Stream (!write) (stream ++ emit opened write q) := by
  cases hq with
  | write table v k =>
    cases opened with
    | false => exact WellBracketed.append_block h (.write table v k)
    | true =>
      have hblocks := (Unclosed.commit h).append_block (.write table v k)
      rwa [append_assoc] at hblocks
  | read table k =>
    cases opened with
    | false =>
      have hblock := (WellBracketed.open h).select table k
      rwa [append_assoc] at hblock
    | true => exact Unclosed.select h table k

def cost : Bool → Bool → ℕ
  | false, false => 2
  | true, false => 1
  | false, true => 3
  | true, true => 4

theorem length_emit (opened write : Bool) (q : Statement) :
    (emit opened write q).length = cost opened write := by
  cases opened <;> cases write <;> rfl

def openAfter : Bool → List Bool → Bool
  | opened, [] => opened
  | _, write :: writes => openAfter (!write) writes

def total : Bool → List Bool → ℕ
  | _, [] => 0
  | opened, write :: writes => cost opened write + total (!write) writes

/-- Three statements for each query on average, and the COMMIT of a block that was open
before and is not open after. -/
theorem total_le (opened : Bool) (writes : List Bool) :
    total opened writes + (openAfter opened writes).toNat ≤ 3 * writes.length + opened.toNat := by
  induction writes generalizing opened with
  | nil => simp [total, openAfter]
  | cons write writes ih =>
    have hrest := ih (!write)
    rw [total, openAfter, length_cons]
    cases opened <;> cases write <;> simp only [cost, Bool.not_true, Bool.not_false,
      toNat_true, toNat_false] at hrest ⊢ <;> omega

theorem total_le_of_reads
    (hreads : ¬ writes.IsChain fun w w' => w = true ∨ w' = true) (opened : Bool) :
    total opened writes + (openAfter opened writes).toNat + 2 ≤
      3 * writes.length + opened.toNat := by
  induction writes generalizing opened with
  | nil => exact absurd .nil hreads
  | cons write writes ih =>
    rw [total, openAfter, length_cons]
    cases writes with
    | nil => exact absurd (.singleton write) hreads
    | cons next rest =>
      by_cases hchain : (next :: rest).IsChain fun w w' => w = true ∨ w' = true
      · have hboth : ¬ (write = true ∨ next = true) :=
          fun h => hreads (isChain_cons_cons.mpr ⟨h, hchain⟩)
        obtain ⟨hwrite, hnext⟩ := not_or.mp hboth
        rw [not_eq_true] at hwrite hnext
        subst hwrite hnext
        have hrest := total_le true rest
        rw [total, openAfter, length_cons]
        cases opened <;> simp only [cost, Bool.not_false, toNat_true,
          toNat_false] at hrest ⊢ <;> omega
      · have hrest := ih hchain (!write)
        cases opened <;> cases write <;> simp only [cost, Bool.not_true, Bool.not_false,
          toNat_true, toNat_false] at hrest ⊢ <;> omega

theorem openAfter_getLast (h : writes.getLast? = some write)
    (opened : Bool) : openAfter opened writes = !write := by
  induction writes generalizing opened with
  | nil => simp at h
  | cons w writes ih =>
    rw [openAfter]
    cases writes with
    | nil =>
      rw [getLast?_singleton, Option.some.injEq] at h
      rw [h, openAfter]
    | cons w' writes => exact ih (by rwa [getLast?_cons_cons] at h) _

/-- The queries start and end with a write and have no two reads in a row. -/
def Tight (writes : List Bool) : Prop :=
  writes.head? = some true ∧ writes.getLast? = some true ∧
    writes.IsChain fun w w' => w = true ∨ w' = true

/-- Only a tight batch that starts inside a block needs more than its share. -/
theorem total_le_of_not_tight
    (h : opened = true → ¬ Tight writes) : total opened writes ≤ 3 * writes.length := by
  have hle := total_le opened writes
  cases opened with
  | false =>
    rw [toNat_false] at hle
    omega
  | true =>
    rw [toNat_true] at hle
    by_cases hchain : writes.IsChain fun w w' => w = true ∨ w' = true
    · cases writes with
      | nil => exact Nat.zero_le _
      | cons write writes =>
        cases write with
        | false =>
          have hrest := total_le true writes
          rw [total, length_cons]
          simp only [cost, Bool.not_false, Bool.toNat_true] at hrest ⊢
          omega
        | true =>
          cases hlast : (true :: writes).getLast? with
          | none => simp at hlast
          | some last =>
            cases last with
            | false =>
              rw [openAfter_getLast hlast, Bool.not_false, Bool.toNat_true] at hle
              omega
            | true => exact absurd ⟨rfl, hlast, hchain⟩ (h rfl)
    · have hreads := total_le_of_reads hchain true
      rw [Bool.toNat_true] at hreads
      omega

/-! The worker follows the statements counted above. -/

/-- Options with which every key has a table; rows is an int. -/
structure Usable (opt : Opt) : Prop where
  explicit : opt.implicitxactions = false
  rows_pos : 1 ≤ opt.rows
  rows_lt : opt.rows < 2 ^ 31
  tables : opt.partitions = 0 ∨ opt.rows.tdiv opt.partitions ≠ 0

theorem natAbs_lt_of_int {z : ℤ} (h0 : 0 ≤ z) (h : z < 2 ^ 31) : z.natAbs < 10 ^ 10 := by omega

theorem Usable.tableOfRow (h : Usable opt) (hk0 : 0 ≤ k) (hk : k < opt.rows) :
    ∃ table, tableOfRow opt k = .ok table ∧ table.length ≤ 22 := by
  unfold Pgload.tableOfRow divInt
  by_cases hparts : opt.partitions = 0
  · exact ⟨_, if_pos hparts, by decide⟩
  · have hrowsPerPart := h.tables.resolve_left hparts
    rw [if_neg hparts, if_neg hparts, ok_bind, if_neg hrowsPerPart, ok_bind]
    refine ⟨_, rfl, ?_⟩
    have habs : (k.tdiv (opt.rows.tdiv opt.partitions)).natAbs < 10 ^ 10 := by
      rw [Int.natAbs_tdiv]
      have hlt := natAbs_lt_of_int hk0 (Int.lt_trans hk h.rows_lt)
      exact Nat.lt_of_le_of_lt (Nat.div_le_self _ _) hlt
    have hlen := length_decimal_le (by decide) habs
    rw [length_append]
    exact Nat.add_le_add (Nat.le_of_eq (show simplebench.length = 11 from rfl)) hlen

theorem short_select (htable : table.length ≤ 22)
    (hk : k.natAbs < 10 ^ 10) : (Statement.select table k).Short := by
  have hlen := length_decimal_le (by decide) hk
  unfold Statement.Short Statement.text
  have h₁ : "SELECT v FROM ".toList.length = 14 := rfl
  have h₂ : " WHERE k = ".toList.length = 11 := rfl
  simp only [length_append, h₁, h₂, length_singleton]
  omega

theorem short_update (htable : table.length ≤ 22)
    (hv : v.natAbs < 10 ^ 10) (hk : k.natAbs < 10 ^ 10) : (Statement.update table v k).Short := by
  have hlen := length_decimal_le (by decide) hk
  have hlen' := length_decimal_le (by decide) hv
  unfold Statement.Short Statement.text
  have h₁ : "UPDATE ".toList.length = 7 := rfl
  have h₂ : " SET v = ".toList.length = 9 := rfl
  have h₃ : " WHERE k = ".toList.length = 11 := rfl
  simp only [length_append, h₁, h₂, h₃, length_singleton]
  omega

theorem short_emit (hq : q.Short) : ∀ r ∈ emit opened write q, r.Short := by
  intro r hr
  unfold emit at hr
  split_ifs at hr
  · rcases mem_append.mp hr with hr | hr
    · exact short_bracket _ _ r hr
    · rcases mem_cons.mp hr with rfl | hr
      · exact hq
      · exact short_closing .readOnly r hr
  · rcases mem_append.mp hr with hr | hr
    · exact short_bracket _ _ r hr
    · rw [mem_singleton.mp hr]
      exact hq

theorem stateOf_ne_implicit (opened : Bool) : stateOf opened ≠ .implicit := by
  cases opened <;> decide

theorem length_text_append (buf : QueryBuf) (qs : List Statement) (typ : XactionState) :
    (buf.append qs typ).text.length = buf.text.length + qs.length := length_append

section

variable {buf : QueryBuf} (hbuf : buf.Filled)
  (hstate : buf.xactionState = stateOf opened) {q : Statement} (hq : q.Short)

include hbuf hstate hq

theorem write_eq (hroom : buf.text.length + cost opened true ≤ buf.nQueries) :
    (beginXaction buf .readWrite >>= fun buf => buf.addQ q.result q >>= fun buf =>
      beginXaction buf .none) = .ok (buf.append (emit opened true q) .none) := by
  have hexplicit : buf.xactionState ≠ .implicit := hstate ▸ stateOf_ne_implicit opened
  have hcost : (bracket buf.xactionState .readWrite).length + 2 = cost opened true := by
    rw [hstate]
    cases opened <;> rfl
  have hbegun := hbuf.append (short_bracket buf.xactionState .readWrite) .readWrite
  have hadded := hbegun.append (forall_mem_singleton.mpr hq) .readWrite
  have hlen := length_text_append buf (bracket buf.xactionState .readWrite) .readWrite
  rw [beginXaction_eq hbuf hexplicit .readWrite (by omega), ok_bind, addQ_eq hbegun hq, ok_bind]
  · have hcommit : bracket .readWrite .none = [Statement.commit] := rfl
    have hend := beginXaction_eq hadded (by decide : XactionState.readWrite ≠ .implicit) .none
    refine (hend ?_).trans ?_
    · change _ + (bracket .readWrite .none).length ≤ buf.nQueries
      rw [length_text_append, hlen, hcommit, length_singleton, length_singleton]
      omega
    · change Except.ok (((buf.append (bracket buf.xactionState .readWrite) .readWrite).append [q]
        .readWrite).append (bracket .readWrite .none) .none) = _
      rw [hcommit, append_append, append_append, hstate]
      rfl
  · change _ < buf.nQueries
    omega

theorem read_eq (hroom : buf.text.length + cost opened false ≤ buf.nQueries) :
    (beginXaction buf .readOnly >>= fun buf => buf.addQ q.result q) =
      .ok (buf.append (emit opened false q) .readOnly) := by
  have hexplicit : buf.xactionState ≠ .implicit := hstate ▸ stateOf_ne_implicit opened
  have hcost : (bracket buf.xactionState .readOnly).length + 1 = cost opened false := by
    rw [hstate]
    cases opened <;> rfl
  have hbegun := hbuf.append (short_bracket buf.xactionState .readOnly) .readOnly
  have hlen := length_text_append buf (bracket buf.xactionState .readOnly) .readOnly
  rw [beginXaction_eq hbuf hexplicit .readOnly (by omega), ok_bind, addQ_eq hbegun hq]
  · rw [append_append, hstate]
    rfl
  · change _ < buf.nQueries
    omega

end

theorem Usable.query (h : Usable opt) (buf : QueryBuf) (draw : Draw) :
    ∃ q, IsQuery (isWrite opt draw) q ∧ q.Short ∧ addQuery opt buf draw =
      if isWrite opt draw then beginXaction buf .readWrite >>= fun buf => buf.addQ q.result q >>= fun buf =>
        beginXaction buf .none
      else beginXaction buf .readOnly >>= fun buf => buf.addQ q.result q := by
  have hrows := h.rows_pos
  have hk0 : (0 : ℤ) ≤ (draw.k : ℤ).tmod opt.rows := Int.tmod_nonneg _ (by omega)
  have hk : (draw.k : ℤ).tmod opt.rows < opt.rows := Int.tmod_lt_of_pos _ (by omega)
  obtain ⟨table, htable, hlen⟩ := h.tableOfRow hk0 hk
  have habs := natAbs_lt_of_int hk0 (Int.lt_trans hk h.rows_lt)
  have hv : (draw.v : ℤ).natAbs < 10 ^ 10 := by
    have hlt := draw.v_lt
    omega
  unfold addQuery modInt
  rw [if_neg (by omega), ok_bind, htable]
  cases hwrite : isWrite opt draw with
  | true => exact ⟨_, .write .., short_update hlen habs hv, rfl⟩
  | false => exact ⟨_, .read .., short_select hlen habs, rfl⟩

theorem addQuery_eq (h : Usable opt) (hbuf : buf.Filled)
    (hstate : buf.xactionState = stateOf opened) (draw : Draw)
    (hroom : buf.text.length + cost opened (isWrite opt draw) ≤ buf.nQueries) :
    ∃ q, IsQuery (isWrite opt draw) q ∧ q.Short ∧ addQuery opt buf draw =
      .ok (buf.append (emit opened (isWrite opt draw) q) (stateOf (!isWrite opt draw))) := by
  obtain ⟨q, hquery, hshort, hrun⟩ := h.query buf draw
  refine ⟨q, hquery, hshort, hrun.trans ?_⟩
  cases hwrite : isWrite opt draw with
  | true => exact write_eq hbuf hstate hshort (hwrite ▸ hroom)
  | false => exact read_eq hbuf hstate hshort (hwrite ▸ hroom)

theorem foldlM_addQuery (h : Usable opt) (draws : List Draw)
    (hbuf : buf.Filled) (hstate : buf.xactionState = stateOf opened)
    (hroom : buf.text.length + total opened (draws.map (isWrite opt)) ≤ buf.nQueries) :
    ∃ qs, draws.foldlM (addQuery opt) buf =
        .ok (buf.append qs (stateOf (openAfter opened (draws.map (isWrite opt))))) ∧
      (∀ q ∈ qs, q.Short) ∧ (∀ stream, Stream opened stream →
        Stream (openAfter opened (draws.map (isWrite opt))) (stream ++ qs)) ∧
      qs.length = total opened (draws.map (isWrite opt)) := by
  induction draws generalizing buf opened with
  | nil =>
    refine ⟨[], ?_, by simp, fun stream hstream => by simpa [openAfter] using hstream, rfl⟩
    change Except.ok buf = .ok (buf.append [] (stateOf opened))
    rw [← hstate, append_nil]
  | cons draw draws ih =>
    rw [map_cons, total] at hroom
    obtain ⟨q, hq, hshort, hadd⟩ := addQuery_eq h hbuf hstate draw (by omega)
    have hemit : ∀ r ∈ emit opened (isWrite opt draw) q, r.Short := short_emit hshort
    have hnext := hbuf.append hemit (stateOf (!isWrite opt draw))
    obtain ⟨qs, hloop, hqs, hstreams, hlen⟩ := ih hnext rfl (by
      rw [length_text_append, length_emit]
      change _ ≤ buf.nQueries
      omega)
    refine ⟨emit opened (isWrite opt draw) q ++ qs, ?_, ?_, ?_, ?_⟩
    · rw [foldlM_cons, hadd, ok_bind, hloop, append_append]
      rfl
    · intro r hr
      rcases mem_append.mp hr with hr | hr
      · exact hemit r hr
      · exact hqs r hr
    · intro stream hstream
      rw [← append_assoc]
      exact hstreams _ (hstream.emit hq)
    · rw [length_append, length_emit, hlen, map_cons, total]

def allSent (sent : List Sent) : List Statement := sent.flatMap Sent.statements

/-- Each sent statement has its own expectation, in order and of its kind. -/
def Matching (sent : List Sent) : Prop := ∀ s ∈ sent, s.expect = s.statements.map Statement.result

theorem queryBufSend_eq (hanswer : Answers answer)
    (hbuf : buf.Filled) : ∃ sent, queryBufSend answer buf = .ok (buf.reset, sent) ∧
      allSent sent = buf.text ∧ Matching sent := by
  unfold queryBufSend
  by_cases htext : buf.text = []
  · have hreset : buf.reset = buf := by
      have hexpect := hbuf.expect_eq
      rw [htext, map_nil] at hexpect
      cases buf
      subst htext hexpect
      rfl
    rw [if_pos htext, hreset]
    exact ⟨[], rfl, htext.symm, by simp [Matching]⟩
  · have hcheck : checkResults buf.expect (buf.text.map answer) = .ok () := by
      rw [hbuf.expect_eq, funext hanswer]
      exact checkResults_result buf.text
    rw [if_neg htext, hcheck]
    refine ⟨[⟨buf.text, buf.expect⟩], rfl, flatMap_singleton .., ?_⟩
    intro s hs
    rw [mem_singleton.mp hs]
    exact hbuf.expect_eq

def idle (nQueries : ℕ) (opened : Bool) : QueryBuf := ⟨nQueries, [], [], stateOf opened⟩

theorem filled_idle (nQueries : ℕ) (opened : Bool) : (idle nQueries opened).Filled :=
  ⟨rfl, by simp [idle]⟩

theorem Matching.append (h : Matching sent) (h' : Matching sent') : Matching (sent ++ sent') := by
  intro s hs
  rcases mem_append.mp hs with hs | hs
  · exact h s hs
  · exact h' s hs

structure Between (nQueries : ℕ) (opened : Bool) (worker : QueryBuf × List Sent) : Prop where
  buf_eq : worker.1 = idle nQueries opened
  stream : Stream opened (allSent worker.2)
  matching : Matching worker.2

theorem Between.sendBatch (h : Usable opt) (hanswer : Answers answer)
    (hworker : Between nQueries opened worker)
    (hroom : total opened (batch.map (isWrite opt)) ≤ nQueries) :
    ∃ worker', sendBatch opt answer worker batch = .ok worker' ∧
      Between nQueries (openAfter opened (batch.map (isWrite opt))) worker' := by
  obtain ⟨buf, sent⟩ := worker
  obtain ⟨hidle, hstream, hmatching⟩ := hworker
  simp only at hidle hstream hmatching
  subst hidle
  obtain ⟨qs, hloop, hshort, hstreams, -⟩ :=
    foldlM_addQuery h batch (filled_idle nQueries opened) rfl (by simpa [idle] using hroom)
  obtain ⟨new, hsend, hnew, hmatches⟩ :=
    queryBufSend_eq hanswer ((filled_idle nQueries opened).append hshort
      (stateOf (openAfter opened (batch.map (isWrite opt)))))
  refine ⟨(idle nQueries (openAfter opened (batch.map (isWrite opt))), sent ++ new), ?_, ?_⟩
  · unfold Pgload.sendBatch
    rw [hloop, ok_bind, hsend, ok_bind]
    rfl
  · refine ⟨rfl, ?_, hmatching.append hmatches⟩
    simp only [allSent, flatMap_append] at hstream hnew ⊢
    rw [hnew]
    exact hstreams _ hstream

def Roomy (opt : Opt) (batches : List (List Draw)) : Prop :=
  batches.IsChain fun batch next =>
    (batch.map (isWrite opt)).getLast? = some false → ¬ Tight (next.map (isWrite opt))

theorem foldlM_sendBatch (h : Usable opt)
    (hanswer : Answers answer) (hsize : 1 ≤ size) (batches : List (List Draw))
    (hlen : ∀ batch ∈ batches, batch.length = size) (hroomy : Roomy opt batches)
    (hfirst : ∀ batch ∈ batches.head?, opened = true → ¬ Tight (batch.map (isWrite opt)))
    (hworker : Between (3 * size) opened worker) :
    ∃ opened' worker', batches.foldlM (sendBatch opt answer) worker = .ok worker' ∧
      Between (3 * size) opened' worker' := by
  induction batches generalizing opened worker with
  | nil => exact ⟨opened, worker, rfl, hworker⟩
  | cons batch batches ih =>
    have hbatch := hlen batch (by simp)
    have hroom := total_le_of_not_tight (hfirst batch (by simp))
    rw [length_map, hbatch] at hroom
    obtain ⟨worker₁, hsend, hbetween⟩ := hworker.sendBatch h hanswer hroom
    have hnext : ∀ next ∈ batches.head?,
        openAfter opened (batch.map (isWrite opt)) = true → ¬ Tight (next.map (isWrite opt)) := by
      intro next hnext hopen
      cases hlast : (batch.map (isWrite opt)).getLast? with
      | none =>
        have hnil := getLast?_eq_none_iff.mp hlast
        rw [map_eq_nil_iff.mp hnil] at hbatch
        exact absurd hbatch (by simp only [length_nil]; omega)
      | some write =>
        rw [openAfter_getLast hlast, Bool.not_eq_true'] at hopen
        exact (isChain_cons.mp hroomy).1 next hnext (hopen ▸ hlast)
    obtain ⟨opened', worker', hloop, hend⟩ :=
      ih (fun b hb => hlen b (by simp [hb])) (isChain_cons.mp hroomy).2 hnext hbetween
    refine ⟨opened', worker', ?_, hend⟩
    rw [foldlM_cons, hsend, ok_bind, hloop]

theorem Stream.flush (h : Stream opened l) :
    WellBracketed (l ++ bracket (stateOf opened) .none) := by
  cases opened with
  | false => exact (List.append_nil l).symm ▸ h
  | true => exact Unclosed.commit h

theorem init_eq {size : ℕ} (hpos : 1 ≤ size) (hsize : (size : ℤ) * 3 * 1024 < 2 ^ 31) :
    (mulInt size 3 >>= QueryBuf.init) = .ok (idle (3 * size) false) := by
  have hnat : ((size : ℤ) * 3).toNat = 3 * size := by omega
  unfold QueryBuf.init mulInt
  rw [if_pos (by omega), ok_bind, if_pos (by omega), ok_bind, if_pos (by omega), hnat]
  rfl

/-- What the worker sends is well bracketed, and each batch expects the results of its own
statements, as long as no tight batch follows a read. -/
theorem worker_well_bracketed (opt : Opt) (h : Usable opt) (hbatch : 1 ≤ opt.batchsize)
    (hsize : opt.batchsize * 3 * 1024 < 2 ^ 31) (answer : Statement → Expect)
    (hanswer : Answers answer) (batches : List (List Draw))
    (hlen : ∀ batch ∈ batches, (batch.length : ℤ) = opt.batchsize) (hroomy : Roomy opt batches) :
    ∃ sent, benchWorker opt answer batches = .ok sent ∧ WellBracketed (allSent sent) ∧
      Matching sent := by
  obtain ⟨size, heq⟩ := Int.eq_ofNat_of_zero_le (show 0 ≤ opt.batchsize by omega)
  rw [heq] at hbatch hsize hlen
  have hinit : (mulInt opt.batchsize 3 >>= QueryBuf.init) = .ok (idle (3 * size) false) := by
    rw [heq]
    exact init_eq (by omega) hsize
  have hstart : Between (3 * size) false (idle (3 * size) false, []) :=
    ⟨rfl, ⟨[], rfl⟩, by simp [Matching]⟩
  obtain ⟨opened, worker, hloop, hbuf, hstream, hmatching⟩ :=
    foldlM_sendBatch h hanswer (by omega) batches (fun b hb => Int.ofNat_inj.mp (hlen b hb))
      hroomy (fun _ _ => by simp) hstart
  have hfilled := filled_idle (3 * size) opened
  have hflush : (bracket (stateOf opened) .none).length ≤ 1 := by cases opened <;> decide
  have hend := beginXaction_eq hfilled (stateOf_ne_implicit opened) .none (by
    change 0 + (bracket (stateOf opened) .none).length ≤ 3 * size
    omega)
  obtain ⟨new, hsend, hnew, hmatches⟩ :=
    queryBufSend_eq hanswer (hfilled.append (short_bracket (stateOf opened) .none) .none)
  refine ⟨worker.2 ++ new, ?_, ?_, hmatching.append hmatches⟩
  · unfold benchWorker
    rw [← bind_assoc, hinit, ok_bind, h.explicit]
    simp only [Bool.false_eq_true, if_false]
    rw [hloop, ok_bind, hbuf, hend, ok_bind]
    exact congrArg (· >>= _) hsend
  · unfold allSent
    rw [flatMap_append]
    change WellBracketed (allSent worker.2 ++ allSent new)
    rw [hnew]
    exact hstream.flush

/-- A read and then a write, in one batch of two. -/
theorem worker_well_bracketed_read_write :
    ∃ sent, benchWorker { batchsize := 2, randomwritepct := 50 } Statement.result
        [[⟨7, 60, 0, by decide⟩, ⟨8, 10, 5, by decide⟩]] = .ok sent ∧
      WellBracketed (allSent sent) ∧ Matching sent :=
  worker_well_bracketed { batchsize := 2, randomwritepct := 50 }
    ⟨rfl, by decide, by decide, Or.inl rfl⟩ (by decide) (by decide) Statement.result (fun _ => rfl)
    [[⟨7, 60, 0, by decide⟩, ⟨8, 10, 5, by decide⟩]] (by simp) (.singleton _)

/-- A read and then a write, in batches of one: the second batch has four statements, and the
last expectation is written past the end of the array of three. -/
theorem expectation_out_of_bounds :
    benchWorker { batchsize := 1, randomwritepct := 50 } Statement.result
      [[⟨7, 60, 0, by decide⟩], [⟨8, 10, 5, by decide⟩]] = .error .outOfBounds :=
  rfl

/-- A tight batch that starts inside a block needs one statement more. -/
theorem total_eq_of_chain (hfirst : opened = true → writes.head? = some true)
    (hchain : writes.IsChain fun w w' => w = true ∨ w' = true) :
    total opened writes + (openAfter opened writes).toNat = 3 * writes.length + opened.toNat := by
  induction writes generalizing opened with
  | nil => simp [total, openAfter]
  | cons write writes ih =>
    have hnext : (!write) = true → writes.head? = some true ∨ writes = [] := by
      intro hwrite
      cases writes with
      | nil => exact .inr rfl
      | cons next rest =>
        have hboth := (isChain_cons_cons.mp hchain).1
        exact .inl (congrArg some (hboth.resolve_left (by simpa using hwrite)))
    rw [total, openAfter, length_cons]
    by_cases hnil : writes = []
    · subst hnil
      cases opened <;> cases write <;> simp_all [cost, total, openAfter]
    · have hrest := ih (fun hw => (hnext hw).resolve_right hnil) (isChain_cons.mp hchain).2
      cases opened <;> cases write <;> simp_all [cost] <;> omega

section

variable {buf : QueryBuf} (h : buf.Filled)

include h

theorem addQ_full (hfull : buf.nQueries ≤ buf.text.length) (e : Expect) (q : Statement) :
    buf.addQ e q = .error .outOfBounds := by
  have hlen : buf.expect.length = buf.text.length := by rw [h.expect_eq, length_map]
  unfold QueryBuf.addQ QueryBuf.write
  split_ifs
  · rw [ok_bind]
    exact if_neg (by simp only; omega)
  · rfl

theorem beginXaction_full (hexplicit : buf.xactionState ≠ .implicit) (typ : XactionState)
    (hroom : buf.text.length ≤ buf.nQueries)
    (hfull : buf.nQueries < buf.text.length + (bracket buf.xactionState typ).length) :
    beginXaction buf typ = .error .outOfBounds := by
  unfold beginXaction
  unfold bracket at hfull
  rw [if_neg hexplicit] at hfull ⊢
  by_cases hsame : buf.xactionState = .readOnly ∧ typ = .readOnly
  · rw [if_pos hsame, length_nil] at hfull
    omega
  rw [if_neg hsame, length_append] at hfull
  rw [if_neg hsame]
  by_cases hclose : buf.text.length + (closing buf.xactionState).length ≤ buf.nQueries
  · rw [close_eq h hclose, ok_bind]
    have hfilled := h.append (short_closing buf.xactionState) buf.xactionState
    have hlen := length_text_append buf (closing buf.xactionState) buf.xactionState
    cases typ with
    | none | implicit =>
      simp only [opening, length_nil] at hfull
      omega
    | readWrite | readOnly =>
      simp only [opening, length_singleton] at hfull
      have hadd := addQ_full hfilled (by rw [hlen]; change buf.nQueries ≤ _; omega) ⟨.commandOk, 0⟩
      simp [hadd]
  · have hstate : buf.xactionState ≠ .none := fun hnone => hclose (by rw [hnone]; exact hroom)
    have hone : (closing buf.xactionState).length ≤ 1 := by cases buf.xactionState <;> decide
    rw [if_pos hstate, addQ_full h (by omega)]
    rfl

end

theorem begin_add_full (hbuf : buf.Filled) (hexplicit : buf.xactionState ≠ .implicit) (mode : XactionState)
    (hroom : buf.text.length ≤ buf.nQueries)
    (hfull : buf.nQueries ≤ buf.text.length + (bracket buf.xactionState mode).length) (q : Statement) :
    (beginXaction buf mode >>= fun buf => buf.addQ q.result q) = .error .outOfBounds := by
  by_cases hbegin : buf.text.length + (bracket buf.xactionState mode).length ≤ buf.nQueries
  · have hlen := length_text_append buf (bracket buf.xactionState mode) mode
    rw [beginXaction_eq hbuf hexplicit mode hbegin, ok_bind]
    exact addQ_full (hbuf.append (short_bracket buf.xactionState mode) mode) (by rw [hlen]; exact hfull) _ _
  · rw [beginXaction_full hbuf hexplicit mode hroom (not_le.mp hbegin)]
    rfl

theorem addQuery_full (h : Usable opt) (hbuf : buf.Filled)
    (hstate : buf.xactionState = stateOf opened) (draw : Draw)
    (hroom : buf.text.length ≤ buf.nQueries)
    (hfull : buf.nQueries < buf.text.length + cost opened (isWrite opt draw)) :
    addQuery opt buf draw = .error .outOfBounds := by
  have hexplicit : buf.xactionState ≠ .implicit := hstate ▸ stateOf_ne_implicit opened
  obtain ⟨q, -, hshort, hrun⟩ := h.query buf draw
  refine hrun.trans ?_
  cases hwrite : isWrite opt draw with
  | true =>
    have hcost : (bracket buf.xactionState .readWrite).length + 2 = cost opened true := by
      rw [hstate]
      cases opened <;> rfl
    rw [hwrite] at hfull
    by_cases hadd : buf.text.length + (bracket buf.xactionState .readWrite).length < buf.nQueries
    · have hbegun := hbuf.append (short_bracket buf.xactionState .readWrite) .readWrite
      have hlen := length_text_append buf (bracket buf.xactionState .readWrite) .readWrite
      have hadded := hbegun.append (forall_mem_singleton.mpr hshort) .readWrite
      have hfullEnd : buf.nQueries < buf.text.length + (bracket buf.xactionState .readWrite).length + 1 + 1 := by
        omega
      rw [if_pos rfl, beginXaction_eq hbuf hexplicit .readWrite hadd.le, ok_bind]
      refine (congrArg (· >>= _) (addQ_eq hbegun hshort (by rw [hlen]; exact hadd))).trans ?_
      refine beginXaction_full hadded (by decide : XactionState.readWrite ≠ .implicit) .none ?_ ?_
      · rw [length_text_append, hlen]
        exact hadd
      · rw [length_text_append, hlen]
        exact hfullEnd
    · rw [if_pos rfl, ← bind_assoc, begin_add_full hbuf hexplicit .readWrite hroom (not_lt.mp hadd)]
      rfl
  | false =>
    have hcost : (bracket buf.xactionState .readOnly).length + 1 = cost opened false := by
      rw [hstate]
      cases opened <;> rfl
    rw [hwrite] at hfull
    exact begin_add_full hbuf hexplicit .readOnly hroom (by omega) q

theorem foldlM_addQuery_full (h : Usable opt) (draws : List Draw)
    (hbuf : buf.Filled) (hstate : buf.xactionState = stateOf opened)
    (hroom : buf.text.length ≤ buf.nQueries)
    (hfull : buf.nQueries < buf.text.length + total opened (draws.map (isWrite opt))) :
    draws.foldlM (addQuery opt) buf = .error .outOfBounds := by
  induction draws generalizing buf opened with
  | nil =>
    rw [map_nil, total] at hfull
    omega
  | cons draw draws ih =>
    rw [map_cons, total] at hfull
    rw [foldlM_cons]
    by_cases hfits : buf.text.length + cost opened (isWrite opt draw) ≤ buf.nQueries
    · obtain ⟨q, -, hshort, hadd⟩ := addQuery_eq h hbuf hstate draw hfits
      have hlen := length_text_append buf (emit opened (isWrite opt draw) q) (stateOf (!isWrite opt draw))
      rw [length_emit] at hlen
      rw [hadd, ok_bind]
      refine ih (hbuf.append (short_emit hshort) _) rfl ?_ ?_
      · rw [hlen]
        exact hfits
      · rw [hlen, Nat.add_assoc]
        exact hfull
    · rw [addQuery_full h hbuf hstate draw hroom (not_le.mp hfits)]
      rfl

/-- The entries that are allocated are enough for a batch, and for the last flush, if and only if
the products of their number are ints and no tight batch starts inside a block. -/
theorem expectations_fit (opt : Opt) (h : Usable opt) (opened : Bool) (batch : List Draw)
    (hbatch : batch ≠ []) (hlen : (batch.length : ℤ) = opt.batchsize) :
    (∃ start, (mulInt opt.batchsize 3 >>= QueryBuf.init) = .ok start ∧
      (∃ buf, batch.foldlM (addQuery opt) (start.setXaction (stateOf opened)) = .ok buf ∧
        buf.expect.length ≤ 3 * batch.length) ∧
      ∃ buf, beginXaction (start.setXaction (stateOf opened)) .none = .ok buf ∧
        buf.expect.length ≤ 3 * batch.length) ↔
    opt.batchsize * 3 * 1024 < 2 ^ 31 ∧ (opened = true → ¬ Tight (batch.map (isWrite opt))) := by
  have hidle := filled_idle (3 * batch.length) opened
  have hpos := length_pos_iff.mpr hbatch
  rw [← hlen]
  constructor
  · rintro ⟨start, hstart, ⟨buf, hloop, -⟩, -⟩
    have hsize : (batch.length : ℤ) * 3 * 1024 < 2 ^ 31 := by
      by_contra hbig
      unfold QueryBuf.init mulInt at hstart
      split_ifs at hstart with hthree
      · rw [ok_bind, if_neg (by omega)] at hstart
        cases hstart
      · cases hstart
    refine ⟨hsize, fun hopen htight => ?_⟩
    obtain rfl := Except.ok.inj ((init_eq hpos hsize).symm.trans hstart)
    have htotal := total_eq_of_chain (fun _ : opened = true => htight.1) htight.2.2
    rw [openAfter_getLast htight.2.1, hopen, length_map] at htotal
    have herror := foldlM_addQuery_full h batch hidle rfl (Nat.zero_le _) (by
      change 3 * batch.length < 0 + _
      simp only [Bool.not_true, toNat_true, toNat_false] at htotal
      rw [hopen]
      omega)
    cases herror.symm.trans hloop
  · rintro ⟨hsize, htight⟩
    have hroom := total_le_of_not_tight htight
    rw [length_map] at hroom
    refine ⟨_, init_eq hpos hsize, ?_, ?_⟩
    · obtain ⟨qs, hloop, -, -, hqs⟩ := foldlM_addQuery h batch hidle rfl (by simpa [idle] using hroom)
      refine ⟨_, hloop, ?_⟩
      simpa [QueryBuf.append, idle, hqs] using hroom
    · have hflush : (bracket (stateOf opened) .none).length ≤ 1 := by cases opened <;> decide
      refine ⟨_, beginXaction_eq hidle (stateOf_ne_implicit opened) .none ?_, ?_⟩
      · change 0 + (bracket (stateOf opened) .none).length ≤ 3 * batch.length
        omega
      · simp only [QueryBuf.append, idle, nil_append, length_map]
        omega

/-- A write and a read, in batches of two, when the last batch has left a block open. -/
theorem expectations_fit_read : ∃ start, (mulInt 2 3 >>= QueryBuf.init) = .ok start ∧
    (∃ buf, [⟨8, 10, 5, by decide⟩, ⟨7, 60, 0, by decide⟩].foldlM
      (addQuery { batchsize := 2, randomwritepct := 50 }) (start.setXaction .readOnly) = .ok buf ∧
      buf.expect.length ≤ 6) ∧
    ∃ buf, beginXaction (start.setXaction .readOnly) .none = .ok buf ∧ buf.expect.length ≤ 6 :=
  (expectations_fit { batchsize := 2, randomwritepct := 50 } ⟨rfl, by decide, by decide, Or.inl rfl⟩
    true [⟨8, 10, 5, by decide⟩, ⟨7, 60, 0, by decide⟩] (by simp) rfl).mpr
    ⟨by decide, fun _ => by simp [Tight, isWrite]⟩

/-- One write in a block that the batch before it left open: four expectations. -/
theorem four_expectations :
    [⟨8, 10, 5, by decide⟩].foldlM (addQuery { batchsize := 1, randomwritepct := 50 }) (idle 3 true) =
      .error .outOfBounds :=
  rfl

end Mosbench.Pgload
