import Mathlib.Data.List.Lex
import Mosbench.Metis.Aggregation
import Mosbench.Metis.Presplit

/-!
The map function of wc.c. A word starts with a letter and goes on with letters and apostrophes; the
splitter cuts before blanks, line ends and zeros only. None of these is part of a word, so the words
of the pieces are those of the text.
-/
namespace Mosbench.Metis

open List Option Bytes Fallible

def toupper (c : Byte) : Byte := if 97 ≤ c ∧ c ≤ 122 then c - 32 else c

def capital (c : Byte) : Bool := 65 ≤ c && c ≤ 90

/-- A letter that goes on with a word: a capital or an apostrophe. -/
def continues (c : Byte) : Bool := capital c || c = 39

def maxKeyLen : ℕ := 256

structure Scanner where
  tmpKey : Option (List Byte)
  emitted : List (List Byte)
  deriving DecidableEq

namespace Scanner

def start : Scanner := ⟨none, []⟩

def emit (s : Scanner) : Scanner := ⟨none, s.emitted ++ s.tmpKey.toList⟩

def step (s : Scanner) (c : Byte) : Option Scanner :=
  match s.tmpKey with
  | some key =>
    if continues (toupper c) = false then some s.emit
    else if key.length + 1 < maxKeyLen then some { s with tmpKey := some (key ++ [toupper c]) }
    else none
  | none => some (if capital (toupper c) then { s with tmpKey := some [toupper c] } else s)

/-- The loop, whose index has 32 bits. -/
def loop (data : List Byte) : ℕ → ℕ → Scanner → Option Scanner
  | 0, _, _ => none
  | fuel + 1, i, s =>
    match data[i]? with
    | none => some s
    | some c => (s.step c).bind (loop data fuel ((i + 1) % 2 ^ 32))

end Scanner

def wordcountMap (fuel : ℕ) (data : List Byte) : Option (List (List Byte)) :=
  (Scanner.loop data fuel 0 .start).map fun s => s.emit.emitted

def piece (text : List Byte) (ma : Split) : List Byte := (text.drop ma.data).take ma.length

def WordsBelow (n : ℕ) (text : List Byte) : Prop :=
  ∀ c run, (c :: run) <:+: text → capital (toupper c) = true → (∀ b ∈ run, continues (toupper b) = true) →
    (c :: run).length < n

namespace Scanner

variable {data : List Byte}

theorem loop_eq (hlen : data.length < 2 ^ 32) (hi : i ≤ data.length) (hfuel : data.length < fuel + i) :
    loop data fuel i s = (data.drop i).foldlM step s := by
  induction fuel generalizing i s with
  | zero => omega
  | succ fuel ih =>
    rw [loop]
    rcases hi.lt_or_eq with hlt | rfl
    · rw [List.getElem?_eq_getElem hlt, drop_eq_getElem_cons hlt, foldlM_cons, Nat.mod_eq_of_lt (by omega)]
      dsimp only
      cases s.step data[i] with
      | none => rfl
      | some s' => exact ih hlt (by omega)
    · rw [List.getElem?_eq_none le_rfl, drop_length]
      rfl

theorem foldlM_emitted (words : List (List Byte)) :
    data.foldlM step { s with emitted := words ++ s.emitted } =
      (data.foldlM step s).map fun t => { t with emitted := words ++ t.emitted } := by
  induction data generalizing s with
  | nil => rfl
  | cons c data ih =>
    have hstep : ({ s with emitted := words ++ s.emitted } : Scanner).step c =
        (s.step c).map fun t => { t with emitted := words ++ t.emitted } := by
      obtain ⟨tmpKey, emitted⟩ := s
      cases tmpKey <;> simp only [step] <;> split_ifs <;> simp [emit]
    rw [foldlM_cons, foldlM_cons, hstep]
    cases s.step c with
    | none => rfl
    | some t => exact ih

theorem step_delimiter (hc : delimiter c = true) (s : Scanner) : s.step c = some s.emit := by
  have hnot : continues (toupper c) = false ∧ capital (toupper c) = false := by
    simp only [delimiter, Bool.or_eq_true, decide_eq_true_eq] at hc
    rcases hc with (((rfl | rfl) | rfl) | rfl) | rfl <;> decide
  obtain ⟨tmpKey, emitted⟩ := s
  cases tmpKey with
  | none => simp [step, emit, hnot]
  | some key => simp [step, hnot]

def weight (s : Scanner) : ℕ := 2 * s.emitted.length + s.tmpKey.toList.length

theorem step_weight {s t : Scanner} (h : s.step c = some t) : t.weight ≤ s.weight + 1 := by
  obtain ⟨tmpKey, emitted⟩ := s
  cases tmpKey with
  | none =>
    simp only [step, some.injEq] at h
    subst h
    split_ifs <;> simp [weight]
  | some key =>
    simp only [step] at h
    split_ifs at h
    · obtain rfl := some.inj h
      simp only [weight, emit, length_append, toList_some, toList_none, length_singleton, length_nil]
      omega
    · obtain rfl := some.inj h
      simp [weight]

theorem foldlM_weight {s t : Scanner} (h : data.foldlM step s = some t) : t.weight ≤ s.weight + data.length := by
  induction data generalizing s with
  | nil =>
    obtain rfl := some.inj h
    exact le_rfl
  | cons c data ih =>
    obtain ⟨s', hstep, hrest⟩ := bind_eq_some_iff.mp h
    have := step_weight hstep
    have := ih hrest
    rw [length_cons]
    omega

end Scanner

section Scan

def scan (data : List Byte) : Option (List (List Byte)) :=
  (data.foldlM Scanner.step .start).map fun s => s.emit.emitted

theorem wordcountMap_eq (hlen : data.length < 2 ^ 32) (hfuel : data.length < fuel) : wordcountMap fuel data = scan data := by
  rw [wordcountMap, Scanner.loop_eq hlen (Nat.zero_le _) hfuel]
  rfl

/-- Between two words there is a byte that belongs to none. -/
theorem length_scan_le (h : scan data = some words) : 2 * words.length ≤ data.length + 1 := by
  obtain ⟨s, hrun, rfl⟩ := map_eq_some_iff.mp h
  have hweight := Scanner.foldlM_weight hrun
  have hone : s.tmpKey.toList.length ≤ 1 := by cases s.tmpKey <;> simp
  simp only [Scanner.weight, Scanner.start, length_nil, toList_none] at hweight
  rw [Scanner.emit, length_append]
  omega

theorem scan_append (hrest : rest = [] ∨ ∃ c tail, rest = c :: tail ∧ delimiter c = true) :
    scan (data ++ rest) = (scan data).bind fun words => (scan rest).map (words ++ ·) := by
  rw [scan, scan, foldlM_append]
  cases data.foldlM Scanner.step .start with
  | none => rfl
  | some s =>
    rcases hrest with rfl | ⟨c, tail, rfl, hc⟩
    · simp [scan, Scanner.start, Scanner.emit]
    · have hemit : s.emit = { Scanner.start with emitted := s.emit.emitted ++ Scanner.start.emitted } := by
        rw [Scanner.start, append_nil]
        rfl
      have hcut : ∀ t : Scanner, (c :: tail).foldlM Scanner.step t = tail.foldlM Scanner.step t.emit := by
        intro t
        rw [foldlM_cons, Scanner.step_delimiter hc]
        rfl
      change Option.map _ ((c :: tail).foldlM Scanner.step s) = Option.map _ (scan (c :: tail))
      rw [scan, hcut, hcut, hemit, Scanner.foldlM_emitted, show Scanner.start.emit = .start from rfl]
      cases tail.foldlM Scanner.step .start with
      | none => rfl
      | some t => exact congrArg some (append_assoc _ _ _)

theorem Tiles.scan (htiles : Tiles start mas text.length) (hstart : start ≤ text.length)
    (hborder : ∀ ma ∈ mas, AtBorder text ma) :
    (mas.map (piece text)).flatten = text.drop start ∧
      (mas.mapM fun ma => scan (piece text ma)).map List.flatten = Metis.scan (text.drop start) := by
  induction mas generalizing start with
  | nil =>
    obtain rfl : start = text.length := htiles
    rw [drop_length]
    exact ⟨rfl, rfl⟩
  | cons ma mas ih =>
    obtain ⟨rfl, htiles⟩ := htiles
    obtain ⟨hat, hborder⟩ := forall_mem_cons.mp hborder
    have hcut : text.drop ma.data = piece text ma ++ text.drop (ma.data + ma.length) := by
      rw [piece, ← drop_drop, take_append_drop]
    have hle : ma.data + ma.length ≤ text.length := by
      rcases hat with heq | ⟨c, tail, hdrop, -⟩
      · exact heq.le
      · by_contra hlt
        rw [drop_eq_nil_of_le (by omega)] at hdrop
        cases hdrop
    obtain ⟨hbytes, hwords⟩ := ih htiles hle hborder
    refine ⟨by rw [map_cons, flatten_cons, hbytes, hcut], ?_⟩
    rw [hcut, scan_append (hat.imp_left fun heq => drop_eq_nil_of_le heq.ge), ← hwords, mapM_cons]
    cases Metis.scan (piece text ma) with
    | none => rfl
    | some words => cases mas.mapM fun ma => Metis.scan (piece text ma) <;> rfl

def InWord (seen : List Byte) (s : Scanner) : Prop :=
  ∀ key ∈ s.tmpKey, ∃ front c run, seen = front ++ c :: run ∧ key.length = (c :: run).length ∧
    capital (toupper c) = true ∧ ∀ b ∈ run, continues (toupper b) = true

theorem exists_scan (hwords : WordsBelow maxKeyLen text) : ∃ words, scan text = some words := by
  have hcontinue : ∀ {run b}, (∀ b' ∈ run, continues (toupper b') = true) → ¬continues (toupper b) = false →
      ∀ b' ∈ run ++ [b], continues (toupper b') = true := by
    intro run b hrun hb b' hb'
    rcases mem_append.mp hb' with hb' | hb'
    · exact hrun b' hb'
    · rw [mem_singleton.mp hb']
      simpa using hb
  have hstep : ∀ seen b rest s, text = seen ++ b :: rest → InWord seen s → ∃ s', Scanner.step s b = some s' ∧
      InWord (seen ++ [b]) s' := by
    intro seen b rest s htext hs
    rw [Scanner.step]
    cases hkey : s.tmpKey with
    | none =>
      refine ⟨_, rfl, fun key hmem => ?_⟩
      split_ifs at hmem with hcapital
      · obtain rfl := some.inj hmem
        exact ⟨seen, b, [], rfl, rfl, hcapital, fun b hb => absurd hb not_mem_nil⟩
      · rw [hkey] at hmem
        cases hmem
    | some key =>
      obtain ⟨front, c, run, rfl, hlen, hcapital, hrun⟩ := hs key hkey
      dsimp only
      split_ifs with hends hroom
      · exact ⟨_, rfl, fun key hmem => by cases hmem⟩
      · refine ⟨_, rfl, fun key' hmem => ?_⟩
        obtain rfl := some.inj hmem
        exact ⟨front, c, run ++ [b], by simp, by simp [hlen], hcapital, hcontinue hrun hends⟩
      · have hshort := hwords c (run ++ [b]) ⟨front, rest, by rw [htext]; simp⟩ hcapital (hcontinue hrun hends)
        rw [length_cons, length_append, length_singleton] at hshort
        rw [length_cons] at hlen
        omega
  have hstart : InWord [] .start := fun key hmem => by cases hmem
  obtain ⟨s, hrun, -⟩ := foldlM_invariant InWord text hstart hstep
  exact ⟨_, by rw [scan, hrun]; rfl⟩

end Scan

theorem wordcountMap_piece (hlen : text.length < 2 ^ 32) (ma : Split) :
    wordcountMap (text.length + 1) (piece text ma) = scan (piece text ma) := by
  have hle : (piece text ma).length ≤ text.length := by
    rw [piece, length_take, length_drop]
    omega
  exact wordcountMap_eq (by omega) (by omega)

/-- However a text is split for counting, its splits tile it, every cut is before a delimiter, and the
words of the splits, one after the other, are those of the whole text. -/
theorem wordcount_split_independent (ncores : ℕ) (text : List Byte) (nsplits : ℕ) (hlen : text.length < 2 ^ 32)
    (hwords : WordsBelow 255 text) (hpos : 1 ≤ nsplits) (hsplits : nsplits ≤ text.length) :
    ∃ fuel mas, presplit (wordcountSplitter ncores) fuel ⟨0, text, nsplits⟩ = some mas ∧
      Tiles 0 mas text.length ∧ (mas.map (piece text)).flatten = text ∧ (∀ ma ∈ mas, AtBorder text ma) ∧
      ∃ words pieces, wordcountMap fuel text = some words ∧
        (mas.mapM fun ma => wordcountMap fuel (piece text ma)) = some pieces ∧ pieces.flatten = words := by
  have hcount : splitCount ncores nsplits = nsplits := splitCount_self hpos
  obtain ⟨mas, hrun, htiles, hgood⟩ := exists_presplit_wordcount (hpos.trans hcount.ge) (.inl (hcount.trans_le hsplits))
  have hborder : ∀ ma ∈ mas, AtBorder text ma := fun ma hma => (hgood ma hma).2
  obtain ⟨hbytes, hscan⟩ := htiles.scan (Nat.zero_le _) hborder
  rw [drop_zero] at hbytes hscan
  obtain ⟨words, hword⟩ := exists_scan fun c run hinfix hc hr => (hwords c run hinfix hc hr).trans (by decide)
  rw [hword] at hscan
  obtain ⟨pieces, hpieces, hflat⟩ := map_eq_some_iff.mp hscan
  refine ⟨_, mas, presplit_eq_some.mpr ⟨hrun, htiles.ne_nil (by omega)⟩, htiles, hbytes, hborder, words, pieces, ?_, ?_, hflat⟩
  · rw [wordcountMap_eq hlen (Nat.lt_succ_self _), hword]
  · rw [funext (wordcountMap_piece hlen), hpieces]

/-- The text "ab c" in two splits. -/
theorem wordcount_split_independent_abc :
    ∃ fuel mas, presplit (wordcountSplitter 1) fuel ⟨0, [97, 98, 32, 99], 2⟩ = some mas ∧ Tiles 0 mas 4 ∧
      ∃ words pieces, wordcountMap fuel [97, 98, 32, 99] = some words ∧
        (mas.mapM fun ma => wordcountMap fuel (piece [97, 98, 32, 99] ma)) = some pieces ∧ pieces.flatten = words := by
  have hwords : WordsBelow 255 [97, 98, 32, 99] := fun c run hinfix _ _ => hinfix.length_le.trans_lt (by decide)
  obtain ⟨fuel, mas, hrun, htiles, -, -, hequal⟩ :=
    wordcount_split_independent 1 [97, 98, 32, 99] 2 (by decide) hwords (by decide) (by decide)
  exact ⟨fuel, mas, hrun, htiles, hequal⟩

theorem reduce_ones (l : List (List Byte)) (w : List Byte) :
    wordcountReduce (Grouping.valuesOf (l.map fun w => (w, 1#64)) w) = .ofNat 64 (l.count w) := by
  induction l with
  | nil => rfl
  | cons v l ih =>
    rw [map_cons, Grouping.valuesOf_cons, wordcountReduce_append, ih, count_cons]
    by_cases hv : v = w
    · simp [hv, BitVec.ofNat_add, BitVec.add_comm]
    · simp [hv]

/-- Word count from the text to the counts, with or without a combiner or a value modifier: however
the workers share the splits, a reduce task emits each of its words once, with its number of places. -/
theorem wordcount_counts (c : KeyComparator (List Byte)) (agg : Aggregation) (text : List Byte) (ncores nsplits : ℕ)
    (hlen : text.length < 2 ^ 32 - 1) (hpos : 1 ≤ nsplits) (hsplits : nsplits ≤ text.length) (mas : List Split)
    (hmas : presplit (wordcountSplitter ncores) (text.length + 1) ⟨0, text, nsplits⟩ = some mas) (pieces : List (List (List Byte)))
    (hpieces : (mas.mapM fun ma => wordcountMap (text.length + 1) (piece text ma)) = some pieces) (task : List Byte → Bool)
    (rows : List (List (KeyVal (List Byte) Count)))
    (hrows : (rows.flatten.map KeyVal.pair).Perm ((pieces.flatten.filter task).map fun w => (w, 1#64))) :
    ∃ words out, wordcountMap (text.length + 1) text = some words ∧ wordcount agg c.cmp rows = some out ∧
      (out.Pairwise fun x y => x.1 < y.1) ∧
      ∀ w n, (w, n) ∈ out ↔ w ∈ words ∧ task w = true ∧ n = .ofNat 64 (words.count w) := by
  have hcount : splitCount ncores nsplits = nsplits := splitCount_self hpos
  obtain ⟨_, hrun, htiles, hgood⟩ := exists_presplit_wordcount (hpos.trans hcount.ge) (.inl (hcount.trans_le hsplits))
  obtain rfl := some.inj (hrun.symm.trans (presplit_eq_some.mp hmas).1)
  obtain ⟨-, hscan⟩ := htiles.scan (Nat.zero_le _) fun ma hma => (hgood ma hma).2
  rw [drop_zero, ← funext (wordcountMap_piece (by omega)), hpieces] at hscan
  have hwords := length_scan_le hscan.symm
  obtain ⟨out, hout, hcounts⟩ := wordcount_spec (c := c) agg rows fun k => by
    rw [(Grouping.valuesOf_perm hrows k).length_eq]
    have hle := Grouping.length_valuesOf_le ((pieces.flatten.filter task).map fun w => (w, 1#64)) k
    rw [length_map] at hle
    have := length_filter_le task pieces.flatten
    omega
  refine ⟨pieces.flatten, out, ?_, hout, hcounts.sorted, fun w n => ?_⟩
  · rw [wordcountMap_eq (by omega) (Nat.lt_succ_self _), ← hscan]
    rfl
  have hkeys : ∀ l : List (List Byte), (l.map fun w => (w, 1#64)).map Prod.fst = l := fun l => List.map_map.trans (List.map_id l)
  rw [(hcounts.perm hrows).counts, reduce_ones, hkeys, mem_filter, and_assoc]
  exact and_congr_right fun _ => and_congr_right fun htask => by rw [count_filter htask]

/-- strcmp on the words. -/
def mystrcmp : KeyComparator (List Byte) where
  cmp a b := if a < b then -1 else if b < a then 1 else 0
  neg_iff a b := by split_ifs <;> simp_all
  pos_iff a b := by split_ifs <;> simp_all [le_of_lt]

/-- "a a" in one split, with a combiner. -/
theorem wordcount_counts_twoPlaces :
    ∃ words out, wordcountMap 4 [97, 32, 97] = some words ∧
      wordcount .combiner mystrcmp.cmp [[⟨[65], 1, 0⟩], [⟨[65], 1, 0⟩]] = some out ∧
      ∀ w n, (w, n) ∈ out ↔ w ∈ words ∧ n = .ofNat 64 (words.count w) := by
  obtain ⟨words, out, hwords, hout, -, hmem⟩ := wordcount_counts mystrcmp .combiner [97, 32, 97] 1 1 (by decide) le_rfl
    (by decide) [⟨0, 3⟩] (by decide +kernel) [[[65], [65]]] (by decide +kernel) (fun _ => true)
    [[⟨[65], 1, 0⟩], [⟨[65], 1, 0⟩]] .rfl
  exact ⟨words, out, hwords, hout, by simpa using hmem⟩

end Mosbench.Metis
