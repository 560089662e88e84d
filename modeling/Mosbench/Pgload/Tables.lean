import Mathlib.Data.Int.Order.Basic
import Mathlib.Data.List.Nodup
import Mathlib.Algebra.Ring.Int.Defs
import Mosbench.Lib.Decimal
import Mosbench.Lib.Fallible

/-!
The options and the tables of pgload.c. `create` spreads the rows over the partitions when
it loads the tables; `tableOfRow` computes the partition of a key again when a query is
written. Getopt's and strtol's reading of the command line is left out: an argument is what
its text reads as. The values of the rows, which are random, are left out.
-/
namespace Mosbench.Pgload

open List Decimal Fallible

inductive Fault
  | exit2
  | panic (text : List Char)
  | dbError
  | divideByZero
  | intOverflow
  | outOfBounds
  deriving DecidableEq

structure Opt where
  rows : ℤ := 10000000
  partitions : ℤ := 0
  clients : ℤ := 1
  implicitxactions : Bool := false
  batchsize : ℤ := 0
  correlated : Bool := false
  randomwritepct : ℤ := 0
  deriving DecidableEq

inductive OptName
  | rows
  | partitions
  | clients
  | implicitxactions
  | batchsize
  | correlated
  | randomwritepct
  deriving DecidableEq

/-- What `optarg` is: missing, an integer, the text true or false, or another text. -/
inductive OptArg
  | missing
  | int (val : ℤ)
  | bool (val : Bool)
  | other

def truncate (val : ℤ) : ℤ := Int.bmod val (2 ^ 32)

/-- One option of `parseBenchOpts`: the entry's type decides which arguments it takes. -/
def parseOpt (opt : Opt) (name : OptName) (arg : OptArg) : Except Fault Opt :=
  match name, arg with
  | .rows, .int val => .ok { opt with rows := truncate val }
  | .partitions, .int val => .ok { opt with partitions := truncate val }
  | .clients, .int val => .ok { opt with clients := truncate val }
  | .batchsize, .int val => .ok { opt with batchsize := truncate val }
  | .randomwritepct, .int val => .ok { opt with randomwritepct := truncate val }
  | .implicitxactions, .missing => .ok { opt with implicitxactions := true }
  | .implicitxactions, .bool val => .ok { opt with implicitxactions := val }
  | .correlated, .missing => .ok { opt with correlated := true }
  | .correlated, .bool val => .ok { opt with correlated := val }
  | _, _ => .error .exit2

def parseBenchOpts (opts : List OptName) (opt : Opt) (args : List (OptName × OptArg)) :
    Except Fault Opt :=
  args.foldlM (fun opt arg => if arg.1 ∈ opts then parseOpt opt arg.1 arg.2 else .error .exit2) opt

inductive Command
  | create
  | bench
  deriving DecidableEq

def Command.opts : Command → List OptName
  | .create => [.rows, .partitions]
  | .bench =>
    [.rows, .partitions, .clients, .implicitxactions, .batchsize, .correlated, .randomwritepct]

/-- The options with which `main` runs the command. The test comes before the options are
read. -/
def mainOpt (command : Command) (args : List (OptName × OptArg)) : Except Fault Opt :=
  let opt : Opt := {}
  if opt.partitions ≠ 0 ∧ opt.rows.tmod opt.partitions ≠ 0 then
    .error (.panic "Rows must be a multiple of partitions".toList)
  else
    parseBenchOpts command.opts opt args

def divInt (a b : ℤ) : Except Fault ℤ := if b = 0 then .error .divideByZero else .ok (a.tdiv b)

structure Table where
  name : List Char
  keys : List ℤ
  deriving DecidableEq

def copyBatch : ℕ := 1024

def copyRow (start rows : ℤ) (copy : List ℤ × List ℤ) (row : ℕ) : List ℤ × List ℤ :=
  let buf := copy.2 ++ [row + start]
  if buf.length = copyBatch ∨ (row : ℤ) = rows - 1 then (copy.1 ++ buf, []) else (copy.1, buf)

def bulkLoadTable (table : List Char) (start rows : ℤ) : Table :=
  ⟨table, ((List.range rows.toNat).foldl (copyRow start rows) ([], [])).1⟩

def simplebench : List Char := "simplebench".toList

def create (opt : Opt) : Except Fault (List Table) :=
  if opt.partitions = 0 then
    .ok [bulkLoadTable simplebench 0 opt.rows]
  else do
    let rowsPerPart ← divInt opt.rows opt.partitions
    pure ((List.range opt.partitions.toNat).map fun part : ℕ =>
      bulkLoadTable (simplebench ++ decimal part) (rowsPerPart * part) rowsPerPart)

def tableOfRow (opt : Opt) (k : ℤ) : Except Fault (List Char) :=
  if opt.partitions = 0 then
    .ok simplebench
  else do
    let rowsPerPart ← divInt opt.rows opt.partitions
    let part ← divInt k rowsPerPart
    pure (simplebench ++ decimal part)

/-- Sent and buffered rows together are the rows so far, and the last row is sent. -/
theorem foldl_copyRow (start : ℤ) (rows n : ℕ) (hn : n ≤ rows) :
    ∃ sent buf, (range n).foldl (copyRow start rows) ([], []) = (sent, buf) ∧
      sent ++ buf = (range n).map (fun row : ℕ => (row : ℤ) + start) ∧
      (n = rows → buf = []) := by
  induction n with
  | zero => exact ⟨[], [], rfl, rfl, fun _ => rfl⟩
  | succ n ih =>
    obtain ⟨sent, buf, hfold, hrows, -⟩ := ih (by omega)
    rw [range_succ, foldl_append, hfold, map_append, map_singleton, ← hrows, foldl_cons, foldl_nil]
    by_cases hflush : (buf ++ [(n : ℤ) + start]).length = copyBatch ∨ (n : ℤ) = rows - 1
    · exact ⟨_, [], if_pos hflush, by simp, fun _ => rfl⟩
    · refine ⟨_, _, if_neg hflush, by simp, ?_⟩
      intro hlast
      exact absurd (Or.inr (by omega)) hflush

theorem keys_bulkLoadTable (table : List Char) (start : ℤ) (rows : ℕ) :
    (bulkLoadTable table start rows).keys =
      (range rows).map (fun row : ℕ => (row : ℤ) + start) := by
  obtain ⟨sent, buf, hfold, hrows, hbuf⟩ := foldl_copyRow start rows rows le_rfl
  rw [hbuf rfl, append_nil] at hrows
  rw [← hrows]
  unfold bulkLoadTable
  rw [Int.toNat_natCast, hfold]

theorem mem_keys_bulkLoadTable {rows : ℕ} :
    k ∈ (bulkLoadTable table start rows).keys ↔ start ≤ k ∧ k < start + rows := by
  rw [keys_bulkLoadTable, mem_map]
  constructor
  · rintro ⟨row, hrow, rfl⟩
    have hlt := mem_range.mp hrow
    omega
  · rintro ⟨hle, hlt⟩
    exact ⟨(k - start).toNat, mem_range.mpr (by omega), by omega⟩

theorem nodup_keys_bulkLoadTable (table : List Char) (start : ℤ) (rows : ℕ) :
    (bulkLoadTable table start rows).keys.Nodup := by
  rw [keys_bulkLoadTable]
  apply Nodup.map
  · intro a b hab
    have hcast : (a : ℤ) = b := add_right_cancel hab
    exact Int.ofNat_inj.mp hcast
  · exact nodup_range

def partTable (q part : ℕ) : Table :=
  bulkLoadTable (simplebench ++ decimal part) ((q : ℤ) * part) q

theorem create_eq {opt : Opt} {p q : ℕ} (hp : 1 ≤ p) (hparts : opt.partitions = p)
    (hrows : opt.rows.tdiv p = q) : create opt = .ok ((range p).map (partTable q)) := by
  have hp0 : (p : ℤ) ≠ 0 := by omega
  unfold create divInt
  rw [hparts, if_neg hp0, if_neg hp0, hrows, ok_bind, Int.toNat_natCast]
  rfl

theorem tableOfRow_eq {opt : Opt} {p q : ℕ} (hp : 1 ≤ p) (hq : 1 ≤ q)
    (hparts : opt.partitions = p) (hrows : opt.rows = p * q) (k : ℕ) :
    tableOfRow opt k = .ok (simplebench ++ decimal (k / q : ℕ)) := by
  have hp0 : (p : ℤ) ≠ 0 := by omega
  have hq0 : (q : ℤ) ≠ 0 := by omega
  unfold tableOfRow divInt
  rw [hparts, if_neg hp0, if_neg hp0, hrows, Int.mul_tdiv_cancel_left _ hp0, ok_bind, if_neg hq0,
    ok_bind]
  rfl

theorem mem_partTable (hq : 1 ≤ q) (k part : ℕ) :
    (k : ℤ) ∈ (partTable q part).keys ↔ k / q = part := by
  unfold partTable
  rw [mem_keys_bulkLoadTable, Nat.div_eq_iff hq, mul_comm part q]
  norm_cast
  omega

theorem filter_partTable {p : ℕ} (hq : 1 ≤ q) (hk : k < p * q) :
    ((range p).map (partTable q)).filter (fun t => (k : ℤ) ∈ t.keys) = [partTable q (k / q)] := by
  have hpart : k / q < p := Nat.div_lt_of_lt_mul (by rwa [mul_comm])
  have hpred : ((fun t : Table => decide ((k : ℤ) ∈ t.keys)) ∘ partTable q) =
      fun part => decide (part = k / q) := by
    funext part
    exact decide_eq_decide.mpr ((mem_partTable hq k part).trans eq_comm)
  rw [filter_map, hpred, filter_eq, count_eq_one_of_mem nodup_range (mem_range.mpr hpart)]
  rfl

/-- The first key behind the parts of rounded size is in no table. -/
theorem notMem_partTable {p q part : ℕ} (hpart : part < p) :
    ((p * q : ℕ) : ℤ) ∉ (partTable q part).keys := by
  unfold partTable
  rw [mem_keys_bulkLoadTable]
  rintro ⟨-, hlt⟩
  have hle : q * (part + 1) ≤ q * p := Nat.mul_le_mul_left q hpart
  have hlt' : p * q < q * part + q := by exact_mod_cast hlt
  rw [Nat.mul_succ, mul_comm q p] at hle
  omega

/-- A key is in exactly one of the created tables, once, and that is the table the queries use,
for all keys if and only if the partitions divide the rows. -/
theorem table_layout (loader worker : Opt) (hrows : worker.rows = loader.rows)
    (hparts : worker.partitions = loader.partitions) (hrow : 1 ≤ loader.rows)
    (hpart : 1 ≤ loader.partitions) :
    (∃ tables, create loader = .ok tables ∧ ∀ k, 0 ≤ k → k < loader.rows →
      ∃ t, tables.filter (fun t => k ∈ t.keys) = [t] ∧ t.keys.count k = 1 ∧
        tableOfRow worker k = .ok t.name) ↔ loader.partitions ∣ loader.rows := by
  obtain ⟨p, hp⟩ := Int.eq_ofNat_of_zero_le (show 0 ≤ loader.partitions by omega)
  have hp1 : 1 ≤ p := by omega
  constructor
  · rintro ⟨tables, hcreate, hkeys⟩
    obtain ⟨n, hn⟩ := Int.eq_ofNat_of_zero_le (show 0 ≤ loader.rows by omega)
    have htables := create_eq hp1 hp (q := n / p) (by rw [hn]; rfl)
    obtain rfl := Except.ok.inj (hcreate.symm.trans htables)
    by_contra hdvd
    have hne : p * (n / p) ≠ n := fun heq => hdvd ⟨(n / p : ℕ), by rw [hn, hp]; exact_mod_cast heq.symm⟩
    have hle := Nat.mul_div_le n p
    obtain ⟨t, hfilter, -⟩ := hkeys (p * (n / p) : ℕ) (by omega) (by omega)
    obtain ⟨ht, hmem⟩ := mem_filter.mp (hfilter ▸ mem_singleton_self t)
    obtain ⟨part, hpart', rfl⟩ := mem_map.mp ht
    exact notMem_partTable (mem_range.mp hpart') (of_decide_eq_true hmem)
  · rintro ⟨q, hq⟩
    have hqpos : 0 < q := by
      have hmul : loader.partitions * 0 < loader.partitions * q := by omega
      exact Int.lt_of_mul_lt_mul_left hmul (by omega)
    obtain ⟨q, rfl⟩ := Int.eq_ofNat_of_zero_le (Int.le_of_lt hqpos)
    have hq1 : 1 ≤ q := by omega
    rw [hp] at hq
    refine ⟨_, create_eq hp1 hp (by rw [hq, Int.mul_tdiv_cancel_left _ (by omega)]), ?_⟩
    intro k hk0 hk
    obtain ⟨k, rfl⟩ := Int.eq_ofNat_of_zero_le hk0
    have hlt : k < p * q := by
      rw [hq] at hk
      exact_mod_cast hk
    refine ⟨_, filter_partTable hq1 hlt, ?_, ?_⟩
    · exact count_eq_one_of_mem (nodup_keys_bulkLoadTable ..) ((mem_partTable hq1 k _).mpr rfl)
    · exact tableOfRow_eq hp1 hq1 (hparts.trans hp) (hrows.trans hq) k

/-- Ten rows in five partitions. -/
theorem table_layout_ten :
    ∃ tables, create { rows := 10, partitions := 5 } = .ok tables ∧ ∀ k, 0 ≤ k → k < 10 →
      ∃ t, tables.filter (fun t => k ∈ t.keys) = [t] ∧ t.keys.count k = 1 ∧
        tableOfRow { rows := 10, partitions := 5 } k = .ok t.name :=
  (table_layout { rows := 10, partitions := 5 } { rows := 10, partitions := 5 } rfl rfl (by decide)
    (by decide)).mpr ⟨2, rfl⟩

/-- Three partitions of ten rows are accepted: the last key is in no table, and the queries
look for it in a fourth table. -/
theorem last_row_lost :
    let args := [(OptName.rows, OptArg.int 10), (OptName.partitions, OptArg.int 3)]
    let opt : Opt := { rows := 10, partitions := 3 }
    mainOpt .create args = .ok opt ∧ mainOpt .bench args = .ok opt ∧
      ∃ tables, create opt = .ok tables ∧ (∀ t ∈ tables, (9 : ℤ) ∉ t.keys) ∧
        tableOfRow opt 9 = .ok (simplebench ++ decimal 3) ∧
        simplebench ++ decimal 3 ∉ tables.map Table.name := by
  refine ⟨rfl, rfl, _, rfl, ?_, rfl, ?_⟩
  · decide
  · decide

end Mosbench.Pgload
