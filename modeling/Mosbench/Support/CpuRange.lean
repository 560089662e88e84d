import Mathlib.Data.List.Sort
import Mosbench.Lib.Fallible

/-!
Lists of CPUs written as ranges (set-cpus), such as 0-3,8. The printer sorts the numbers and
writes each run of consecutive ones as one piece; the parser sorts what all pieces denote.
-/
namespace Mosbench.Support.CpuRange

open List Fallible

/-- The white space of `strip`, with the vertical tab and the form feed. -/
def isspace (c : Char) : Bool := c.isWhitespace || c = '\x0b' || c = '\x0c'

/-- `strip`: without white space at both ends. -/
def strip (s : List Char) : List Char := ((s.dropWhile isspace).reverse.dropWhile isspace).reverse

def isdigit (s : List Char) : Bool := !s.isEmpty && s.all Char.isDigit

def parsePiece (piece : List Char) : Option (List ℕ) :=
  match piece.splitOn '-' with
  | [n] => if isdigit n then some [Nat.ofDigitChars 10 n 0] else none
  | [lo, hi] =>
    if isdigit lo ∧ isdigit hi then
      some (range' (Nat.ofDigitChars 10 lo 0) (Nat.ofDigitChars 10 hi 0 + 1 - Nat.ofDigitChars 10 lo 0))
    else none
  | _ => none

def pieces (r : List Char) : List (List Char) := (strip r).splitOn ','

def parseRange (r : List Char) : Option (List ℕ) :=
  ((pieces r).mapM parsePiece).map fun parsed => parsed.flatten.mergeSort

/-- Both loops of printRange: the run from `lo` to `hi` goes on or is finished. -/
def runs (lo hi : ℕ) : List ℕ → List (ℕ × ℕ)
  | [] => [(lo, hi)]
  | v :: vals => if v = hi + 1 then runs lo v vals else (lo, hi) :: runs v v vals

def printPiece (run : ℕ × ℕ) : List Char :=
  if run.1 = run.2 then Nat.toDigits 10 run.1 else Nat.toDigits 10 run.1 ++ '-' :: Nat.toDigits 10 run.2

def printRange (vals : List ℕ) : List Char :=
  match vals.mergeSort with
  | [] => []
  | v :: vals => [','].intercalate ((runs v v vals).map printPiece)

theorem isDigit_of_mem (h : c ∈ Nat.toDigits 10 n) : c.isDigit = true :=
  Nat.isDigit_of_mem_toDigits (by decide) (by decide) h

theorem isdigit_toDigits (n : ℕ) : isdigit (Nat.toDigits 10 n) = true := by
  simpa [isdigit] using fun _ => isDigit_of_mem

theorem parsePiece_printPiece (h : lo ≤ hi) : parsePiece (printPiece (lo, hi)) = some (range' lo (hi + 1 - lo)) := by
  have hminus : ∀ n, '-' ∉ Nat.toDigits 10 n := fun n hmem => by cases isDigit_of_mem hmem
  rw [printPiece, parsePiece]
  split_ifs with heq
  · obtain rfl : lo = hi := heq
    simp [splitOn_eq_singleton (hminus lo), isdigit_toDigits]
  · simp [splitOn_append_cons_self_of_not_mem (hminus lo), splitOn_eq_singleton (hminus hi), isdigit_toDigits]

theorem mem_printPiece (hc : c ∈ printPiece run) : c.isDigit = true ∨ c = '-' := by
  rw [printPiece] at hc
  split_ifs at hc
  · exact .inl (isDigit_of_mem hc)
  · rcases mem_append.mp hc with hc | hc
    · exact .inl (isDigit_of_mem hc)
    · exact (mem_cons.mp hc).symm.imp_left isDigit_of_mem

theorem strip_eq (h : ∀ c ∈ s, isspace c = false) : strip s = s := by
  have hdrop : ∀ l : List Char, (∀ c ∈ l, isspace c = false) → l.dropWhile isspace = l := by
    intro l hl
    cases l with
    | nil => rfl
    | cons c l => exact dropWhile_cons_of_neg (by simp [hl c mem_cons_self])
  rw [strip, hdrop s h, hdrop _ (by simpa using h), reverse_reverse]

/-- What the piece of a run denotes. -/
def expand (run : ℕ × ℕ) : List ℕ := range' run.1 (run.2 + 1 - run.1)

theorem runs_ne_nil (lo hi : ℕ) (vals : List ℕ) : runs lo hi vals ≠ [] := by
  induction vals generalizing lo hi with
  | nil => exact cons_ne_nil _ _
  | cons v vals ih =>
    rw [runs]
    split_ifs
    · exact ih lo v
    · exact cons_ne_nil _ _

theorem flatMap_runs (lo hi : ℕ) (h : lo ≤ hi) (vals : List ℕ) :
    (∀ run ∈ runs lo hi vals, run.1 ≤ run.2) ∧ (runs lo hi vals).flatMap expand = range' lo (hi + 1 - lo) ++ vals := by
  induction vals generalizing lo hi with
  | nil => simp [runs, h, expand]
  | cons v vals ih =>
    rw [runs]
    split_ifs with hv
    · obtain ⟨hle, hflat⟩ := ih lo v (by omega)
      refine ⟨hle, ?_⟩
      have hlen : v + 1 - lo = hi + 1 - lo + 1 := by omega
      have hlast : lo + (hi + 1 - lo) = v := by omega
      rw [hflat, hlen, range'_concat, Nat.one_mul, hlast, append_assoc, singleton_append]
    · obtain ⟨hle, hflat⟩ := ih v v (Nat.le_refl v)
      refine ⟨forall_mem_cons.mpr ⟨h, hle⟩, ?_⟩
      rw [flatMap_cons, hflat, expand, Nat.add_sub_cancel_left]
      rfl

theorem mem_intercalate (hc : c ∈ [','].intercalate l) : c = ',' ∨ ∃ piece ∈ l, c ∈ piece := by
  induction l with
  | nil => simp at hc
  | cons piece l ih =>
    cases l with
    | nil => exact .inr ⟨piece, mem_cons_self, by simpa using hc⟩
    | cons piece' l =>
      rw [intercalate_cons_cons, append_assoc, mem_append, mem_append, mem_singleton] at hc
      rcases hc with hc | hc | hc
      · exact .inr ⟨piece, mem_cons_self, hc⟩
      · exact .inl hc
      · rcases ih hc with hc | ⟨x, hx, hcx⟩
        · exact .inl hc
        · exact .inr ⟨x, mem_cons_of_mem _ hx, hcx⟩

theorem isspace_of_isDigit (h : Char.isDigit c = true) : isspace c = false := by
  rw [Bool.eq_false_iff]
  intro hwhite
  simp only [isspace, Char.isWhitespace, Bool.or_eq_true, decide_eq_true_eq] at hwhite
  rcases hwhite with ((((rfl | rfl) | rfl) | rfl) | rfl) | rfl <;> cases h

theorem pieces_printRange (hsort : vals.mergeSort = v :: vs) : pieces (printRange vals) = (runs v v vs).map printPiece := by
  have hprint : printRange vals = [','].intercalate ((runs v v vs).map printPiece) := by rw [printRange, hsort]
  have hchar : ∀ piece ∈ (runs v v vs).map printPiece, ∀ c ∈ piece, c.isDigit = true ∨ c = '-' := by
    intro piece hpiece c hc
    obtain ⟨run, -, rfl⟩ := mem_map.mp hpiece
    exact mem_printPiece hc
  have hstrip : strip (printRange vals) = printRange vals := strip_eq fun c hc => by
    rw [hprint] at hc
    rcases mem_intercalate hc with rfl | ⟨piece, hpiece, hc⟩
    · rfl
    · rcases hchar piece hpiece c hc with hdigit | rfl
      · exact isspace_of_isDigit hdigit
      · rfl
  rw [pieces, hstrip, hprint, splitOn_intercalate]
  · intro piece hpiece hcomma
    rcases hchar piece hpiece ',' hcomma with h | h <;> cases h
  · simpa using runs_ne_nil v v vs

theorem exists_mergeSort {vals : List ℕ} (hne : vals ≠ []) : ∃ v vs, vals.mergeSort = v :: vs :=
  exists_cons_of_ne_nil fun hnil => hne (length_eq_zero_iff.mp (by rw [← length_mergeSort vals, hnil]; rfl))

theorem parseRange_printRange (hne : vals ≠ []) : parseRange (printRange vals) = some vals.mergeSort := by
  obtain ⟨v, vs, hsort⟩ := exists_mergeSort hne
  obtain ⟨hle, hflat⟩ := flatMap_runs v v (Nat.le_refl v) vs
  have hparse : ((runs v v vs).map printPiece).mapM parsePiece = some ((runs v v vs).map expand) := by
    rw [mapM_map]
    exact mapM_eq_some fun run hrun => parsePiece_printPiece (hle run hrun)
  have hall : ((runs v v vs).map expand).flatten = v :: vs := by
    rw [← flatMap_def, hflat, Nat.add_sub_cancel_left]
    rfl
  rw [parseRange, pieces_printRange hsort, hparse, Option.map_some, hall, ← hsort]
  exact congrArg some (mergeSort_eq_self _ (sortedLE_mergeSort (l := vals)).pairwise)

theorem starts_runs (lo hi : ℕ) (vals : List ℕ) (h : (hi :: vals).Pairwise (· < ·)) :
    (runs lo hi vals).map Prod.fst <+ lo :: vals ∧
      ∀ x ∈ (runs lo hi vals).map Prod.fst, x = lo ∨ x ∈ vals ∧ ∀ y ∈ hi :: vals, y + 1 ≠ x := by
  induction vals generalizing lo hi with
  | nil => simp [runs]
  | cons v vals ih =>
    obtain ⟨hlt, hvals⟩ := pairwise_cons.mp h
    have hafter := (pairwise_cons.mp hvals).1
    have hhi := hlt v mem_cons_self
    have hmore : ∀ x, x ∈ vals ∧ (∀ y ∈ v :: vals, y + 1 ≠ x) → x ∈ v :: vals ∧ ∀ y ∈ hi :: v :: vals, y + 1 ≠ x := by
      rintro x ⟨hx, hfirst⟩
      have := hafter x hx
      exact ⟨mem_cons_of_mem v hx, forall_mem_cons.mpr ⟨by omega, hfirst⟩⟩
    rw [runs]
    split_ifs with hv
    · obtain ⟨hsub, hstart⟩ := ih lo v hvals
      exact ⟨hsub.trans ((sublist_cons_self v vals).cons_cons lo), fun x hx => (hstart x hx).imp_right (hmore x)⟩
    · obtain ⟨hsub, hstart⟩ := ih v v hvals
      refine ⟨hsub.cons_cons lo, forall_mem_cons.mpr ⟨.inl rfl, fun x hx => .inr ?_⟩⟩
      rcases hstart x hx with rfl | hx
      · refine ⟨mem_cons_self, forall_mem_cons.mpr ⟨by omega, forall_mem_cons.mpr ⟨by omega, fun y hy => ?_⟩⟩⟩
        have := hafter y hy
        omega
      · exact hmore x hx

theorem mapM_eq_some_imp {l : List A} (h : l.mapM f = some ys) : ys.length = l.length ∧ ∀ y ∈ ys, ∃ x, f x = some y := by
  induction l generalizing ys with
  | nil =>
    obtain rfl := Option.some.inj h
    simp
  | cons x l ih =>
    rw [mapM_cons] at h
    obtain ⟨y, hy, h⟩ := Option.bind_eq_some_iff.mp h
    obtain ⟨ys', hys, h⟩ := Option.bind_eq_some_iff.mp h
    obtain rfl := Option.some.inj h
    obtain ⟨hlen, hall⟩ := ih hys
    exact ⟨congrArg (· + 1) hlen, forall_mem_cons.mpr ⟨⟨x, hy⟩, hall⟩⟩

theorem parsePiece_head (h : parsePiece piece = some l) (hx : x ∈ l) : l.head? = some x ∨ ∃ y ∈ l, y + 1 = x := by
  have hrange : ∀ a n, x ∈ range' a n → (range' a n).head? = some x ∨ ∃ y ∈ range' a n, y + 1 = x := by
    intro a n hx
    rw [mem_range'_1] at hx
    rcases Nat.eq_or_lt_of_le hx.1 with rfl | hlt
    · cases n with
      | zero => omega
      | succ n => exact .inl rfl
    · exact .inr ⟨x - 1, by rw [mem_range'_1]; omega, by omega⟩
  rw [parsePiece] at h
  split at h
  · split_ifs at h
    obtain rfl := Option.some.inj h
    exact hrange _ 1 hx
  · split_ifs at h
    obtain rfl := Option.some.inj h
    exact hrange _ _ hx
  · cases h

theorem pieces_minimal (hnodup : vals.Nodup) (h : parseRange r = some vals.mergeSort) (hne : vals ≠ []) :
    (pieces (printRange vals)).length ≤ (pieces r).length := by
  obtain ⟨v, vs, hsort⟩ := exists_mergeSort hne
  obtain ⟨parsed, hparsed, hflat⟩ := Option.map_eq_some_iff.mp h
  obtain ⟨hlen, hall⟩ := mapM_eq_some_imp hparsed
  have hmem : ∀ x, x ∈ parsed.flatten ↔ x ∈ v :: vs := fun x => by rw [← hsort, ← hflat, mem_mergeSort]
  have hstrict : (v :: vs).Pairwise (· < ·) := by
    rw [← hsort]
    exact (sortedLE_mergeSort.pairwise.and (nodup_mergeSort.mpr hnodup)).imp fun h => Nat.lt_of_le_of_ne h.1 h.2
  have hafter := (pairwise_cons.mp hstrict).1
  obtain ⟨hsublist, hstart⟩ := starts_runs v v vs hstrict
  have hsub : (runs v v vs).map Prod.fst ⊆ parsed.filterMap head? := by
    intro x hx
    have hfirst : ∀ y ∈ v :: vs, y + 1 ≠ x := by
      rcases hstart x hx with rfl | ⟨-, hfirst⟩
      · refine forall_mem_cons.mpr ⟨by omega, fun y hy => ?_⟩
        have := hafter y hy
        omega
      · exact hfirst
    obtain ⟨l, hl, hxl⟩ := mem_flatten.mp ((hmem x).mpr (hsublist.subset hx))
    obtain ⟨piece, hpiece⟩ := hall l hl
    rcases parsePiece_head hpiece hxl with hhead | ⟨y, hy, heq⟩
    · exact mem_filterMap.mpr ⟨l, hl, hhead⟩
    · exact absurd heq (hfirst y ((hmem y).mp (mem_flatten.mpr ⟨l, hl, hy⟩)))
  calc (pieces (printRange vals)).length
      = ((runs v v vs).map Prod.fst).length := by rw [pieces_printRange hsort, length_map, length_map]
    _ ≤ (parsed.filterMap head?).length := (subperm_of_subset ((hstrict.imp Nat.ne_of_lt).sublist hsublist) hsub).length_le
    _ ≤ parsed.length := length_filterMap_le ..
    _ = (pieces r).length := hlen

/-- Reading a printed list gives its numbers in order, and without repetitions no text that
gives them has fewer pieces. -/
theorem range_round_trip (vals : List ℕ) (hne : vals ≠ []) : parseRange (printRange vals) = some vals.mergeSort ∧
    (vals.Nodup → ∀ r, parseRange r = some vals.mergeSort → (pieces (printRange vals)).length ≤ (pieces r).length) :=
  ⟨parseRange_printRange hne, fun hnodup _ h => pieces_minimal hnodup h hne⟩

theorem range_round_trip_runs : parseRange (printRange [8, 2, 0, 1]) = some ([8, 2, 0, 1].mergeSort : List ℕ) ∧
    ∀ r, parseRange r = some [8, 2, 0, 1].mergeSort → (pieces (printRange [8, 2, 0, 1])).length ≤ (pieces r).length := by
  obtain ⟨hread, hleast⟩ := range_round_trip [8, 2, 0, 1] (by decide)
  exact ⟨hread, hleast (by decide)⟩

end Mosbench.Support.CpuRange
