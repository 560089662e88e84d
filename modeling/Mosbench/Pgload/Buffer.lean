import Mosbench.Pgload.Tables

/-!
The query buffer of pgload.c. A buffer collects the text of statements and, beside it, what
result is expected of each. Both are heap arrays of a fixed size that nothing checks: here a
write past the end of either is the fault `outOfBounds`. `append` says what additions do
when there is room.
-/
namespace Mosbench.Pgload

open List Decimal Fallible

inductive Statement
  | begin
  | beginReadOnly
  | commit
  | select (table : List Char) (k : ℤ)
  | update (table : List Char) (v k : ℤ)
  deriving DecidableEq

def Statement.text : Statement → List Char
  | .begin => "BEGIN;".toList
  | .beginReadOnly => "BEGIN READ ONLY;".toList
  | .commit => "COMMIT;".toList
  | .select table k => "SELECT v FROM ".toList ++ table ++ " WHERE k = ".toList ++ decimal k ++ [';']
  | .update table v k =>
    "UPDATE ".toList ++ table ++ " SET v = ".toList ++ decimal v ++ " WHERE k = ".toList ++
      decimal k ++ [';']

inductive ExecStatus
  | commandOk
  | tuplesOk
  | fatalError
  deriving DecidableEq

/-- `struct queryBufExpect`; also what a result shows of itself. -/
structure Expect where
  status : ExecStatus
  nTuples : ℕ
  deriving DecidableEq

inductive XactionState
  | none
  | readWrite
  | readOnly
  | implicit
  deriving DecidableEq

structure QueryBuf where
  /-- The sizes: `nQueries` expectations and 1024 times as many characters. -/
  nQueries : ℕ
  text : List Statement
  expect : List Expect
  xactionState : XactionState
  deriving DecidableEq

def mulInt (a b : ℤ) : Except Fault ℤ :=
  if -2 ^ 31 ≤ a * b ∧ a * b < 2 ^ 31 then .ok (a * b) else .error .intOverflow

namespace QueryBuf

/-- A negative size is a huge one as an argument of malloc. -/
def init (nQueries : ℤ) : Except Fault QueryBuf := do
  let size ← mulInt nQueries 1024
  if 0 ≤ size then
    pure ⟨nQueries.toNat, [], [], .none⟩
  else
    .error (.panic "Failed to allocate query buffer".toList)

def length (buf : QueryBuf) : ℕ := (buf.text.flatMap Statement.text).length

def write (buf : QueryBuf) (q : Statement) : Except Fault QueryBuf :=
  if buf.length + q.text.length + 1 ≤ buf.nQueries * 1024 then
    .ok { buf with text := buf.text ++ [q] }
  else
    .error .outOfBounds

def expects (buf : QueryBuf) (e : Expect) : Except Fault QueryBuf :=
  if buf.expect.length < buf.nQueries then
    .ok { buf with expect := buf.expect ++ [e] }
  else
    .error .outOfBounds

def addQ (buf : QueryBuf) (e : Expect) (q : Statement) : Except Fault QueryBuf := do
  let buf ← buf.write q
  buf.expects e

def setXaction (buf : QueryBuf) (typ : XactionState) : QueryBuf := { buf with xactionState := typ }

def reset (buf : QueryBuf) : QueryBuf := { buf with text := [], expect := [] }

end QueryBuf

def beginXaction (buf : QueryBuf) (typ : XactionState) : Except Fault QueryBuf :=
  if buf.xactionState = .implicit then .ok buf
  else if buf.xactionState = .readOnly ∧ typ = .readOnly then .ok buf
  else do
    let buf ← (if buf.xactionState ≠ .none then buf.addQ ⟨.commandOk, 0⟩ .commit else .ok buf)
    let buf ← (if typ = .readWrite then buf.addQ ⟨.commandOk, 0⟩ .begin
      else if typ = .readOnly then buf.addQ ⟨.commandOk, 0⟩ .beginReadOnly else .ok buf)
    pure (buf.setXaction typ)

/-- The loop of `queryBuf_send` over the expectations; `results` are the results that
PQgetResult has not returned yet. -/
def checkResults : List Expect → List Expect → Except Fault Unit
  | [], [] => .ok ()
  | [], _ :: _ => .error (.panic "Got more results than expected".toList)
  | _ :: _, [] => .error .dbError
  | e :: expect, res :: results =>
    if res.status ≠ e.status then .error .dbError
    else if e.status = .tuplesOk ∧ res.nTuples ≠ e.nTuples then
      .error (.panic ("Expected ".toList ++ decimal e.nTuples ++ " tuple(s), got ".toList ++
        decimal res.nTuples))
    else checkResults expect results

structure Sent where
  statements : List Statement
  expect : List Expect
  deriving DecidableEq

/-- Sends the buffer's text, if there is any; `answer` is the database's. -/
def queryBufSend (answer : Statement → Expect) (buf : QueryBuf) :
    Except Fault (QueryBuf × List Sent) :=
  if buf.text = [] then .ok (buf, [])
  else do
    checkResults buf.expect (buf.text.map answer)
    pure (buf.reset, [⟨buf.text, buf.expect⟩])

def Statement.result : Statement → Expect
  | .select _ _ => ⟨.tuplesOk, 1⟩
  | _ => ⟨.commandOk, 0⟩

/-- Nothing fails: a select finds one row, and the other commands succeed. -/
def Answers (answer : Statement → Expect) : Prop := ∀ q, answer q = q.result

theorem checkResults_result (qs : List Statement) :
    checkResults (qs.map Statement.result) (qs.map Statement.result) = .ok () := by
  induction qs with
  | nil => rfl
  | cons q qs ih =>
    rw [map_cons, checkResults, if_neg (by simp), if_neg (by simp)]
    exact ih

/-! Additions when there is room. -/

def Statement.Short (q : Statement) : Prop := q.text.length ≤ 100

def QueryBuf.append (buf : QueryBuf) (qs : List Statement) (typ : XactionState) : QueryBuf :=
  ⟨buf.nQueries, buf.text ++ qs, buf.expect ++ qs.map Statement.result, typ⟩

structure QueryBuf.Filled (buf : QueryBuf) : Prop where
  expect_eq : buf.expect = buf.text.map Statement.result
  short : ∀ q ∈ buf.text, q.Short

theorem length_flatMap_le {qs : List Statement} (h : ∀ q ∈ qs, q.Short) :
    (qs.flatMap Statement.text).length ≤ 100 * qs.length := by
  induction qs with
  | nil => simp
  | cons q qs ih =>
    have hq : q.text.length ≤ 100 := h q (by simp)
    have hqs := ih fun r hr => h r (by simp [hr])
    rw [flatMap_cons, length_append, length_cons]
    omega

theorem QueryBuf.Filled.append {buf : QueryBuf} (h : buf.Filled)
    (hshort : ∀ q ∈ qs, q.Short) (typ : XactionState) : (buf.append qs typ).Filled := by
  constructor
  · change buf.expect ++ qs.map Statement.result = (buf.text ++ qs).map Statement.result
    rw [h.expect_eq, map_append]
  · intro q hq
    rcases mem_append.mp hq with hq | hq
    · exact h.short q hq
    · exact hshort q hq

theorem append_append (buf : QueryBuf) (qs qs' : List Statement) (typ typ' : XactionState) :
    (buf.append qs typ).append qs' typ' = buf.append (qs ++ qs') typ' := by
  unfold QueryBuf.append
  rw [map_append, append_assoc, append_assoc]

theorem addQ_eq {buf : QueryBuf} (h : buf.Filled) (hshort : q.Short)
    (hroom : buf.text.length < buf.nQueries) :
    buf.addQ q.result q = .ok (buf.append [q] buf.xactionState) := by
  have htext : buf.length ≤ 100 * buf.text.length := length_flatMap_le h.short
  have hlen : buf.expect.length = buf.text.length := by rw [h.expect_eq, length_map]
  have hq : q.text.length ≤ 100 := hshort
  unfold QueryBuf.addQ QueryBuf.write
  rw [if_pos (by omega), ok_bind]
  unfold QueryBuf.expects
  rw [if_pos (by simp only; omega)]
  rfl

theorem append_nil (buf : QueryBuf) : buf.append [] buf.xactionState = buf := by
  unfold QueryBuf.append
  rw [List.map_nil, List.append_nil, List.append_nil]

def closing : XactionState → List Statement
  | .none => []
  | _ => [.commit]

def opening : XactionState → List Statement
  | .readWrite => [.begin]
  | .readOnly => [.beginReadOnly]
  | _ => []

def bracket (state typ : XactionState) : List Statement :=
  if state = .implicit then []
  else if state = .readOnly ∧ typ = .readOnly then []
  else closing state ++ opening typ

theorem short_closing (state : XactionState) : ∀ q ∈ closing state, q.Short := by
  intro q hq
  cases state <;> simp only [closing, mem_singleton, not_mem_nil] at hq
  all_goals
    subst q
    exact Nat.le_of_ble_eq_true rfl

theorem short_opening (typ : XactionState) : ∀ q ∈ opening typ, q.Short := by
  intro q hq
  cases typ <;> simp only [opening, mem_singleton, not_mem_nil] at hq
  all_goals
    subst q
    exact Nat.le_of_ble_eq_true rfl

theorem short_bracket (state typ : XactionState) : ∀ q ∈ bracket state typ, q.Short := by
  intro q hq
  unfold bracket at hq
  split_ifs at hq
  · exact absurd hq not_mem_nil
  · exact absurd hq not_mem_nil
  · rcases mem_append.mp hq with hq | hq
    · exact short_closing state q hq
    · exact short_opening typ q hq

section

variable {buf : QueryBuf} (h : buf.Filled)

include h

theorem close_eq (hroom : buf.text.length + (closing buf.xactionState).length ≤ buf.nQueries) :
    (if buf.xactionState ≠ .none then buf.addQ ⟨.commandOk, 0⟩ .commit else .ok buf) =
      .ok (buf.append (closing buf.xactionState) buf.xactionState) := by
  by_cases hstate : buf.xactionState = .none
  · rw [if_neg (not_not.mpr hstate)]
    have hnil : closing buf.xactionState = [] := by rw [hstate]; rfl
    rw [hnil, append_nil]
  · have hcommit : closing buf.xactionState = [.commit] := by
      cases hx : buf.xactionState with
      | none => exact absurd hx hstate
      | readWrite | readOnly | implicit => rfl
    rw [hcommit] at hroom ⊢
    rw [if_pos hstate]
    exact addQ_eq h (short_closing .readOnly _ (by simp [closing])) hroom

theorem open_eq (typ : XactionState)
    (hroom : buf.text.length + (opening typ).length ≤ buf.nQueries) :
    (if typ = .readWrite then buf.addQ ⟨.commandOk, 0⟩ .begin
      else if typ = .readOnly then buf.addQ ⟨.commandOk, 0⟩ .beginReadOnly else .ok buf) =
      .ok (buf.append (opening typ) buf.xactionState) := by
  cases typ with
  | none | implicit => exact congrArg Except.ok (append_nil buf).symm
  | readWrite => exact addQ_eq h (short_opening .readWrite _ (by simp [opening])) hroom
  | readOnly => exact addQ_eq h (short_opening .readOnly _ (by simp [opening])) hroom

theorem beginXaction_eq (hexplicit : buf.xactionState ≠ .implicit) (typ : XactionState)
    (hroom : buf.text.length + (bracket buf.xactionState typ).length ≤ buf.nQueries) :
    beginXaction buf typ = .ok (buf.append (bracket buf.xactionState typ) typ) := by
  unfold beginXaction bracket at *
  rw [if_neg hexplicit] at hroom ⊢
  rw [if_neg hexplicit]
  by_cases hsame : buf.xactionState = .readOnly ∧ typ = .readOnly
  · rw [if_pos hsame, if_pos hsame, hsame.2, ← hsame.1, append_nil]
  · rw [if_neg hsame] at hroom
    rw [length_append] at hroom
    rw [if_neg hsame, if_neg hsame, close_eq h (by omega), ok_bind]
    have hopen := open_eq (h.append (short_closing buf.xactionState) buf.xactionState) typ
      (by change (buf.text ++ closing buf.xactionState).length + _ ≤ buf.nQueries
          rw [length_append]
          omega)
    rw [hopen, ok_bind, append_append]
    rfl

end

end Mosbench.Pgload
