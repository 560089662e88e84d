import Mosbench.Lib.MultiMerge
import Mosbench.Psearchy.Records
import Mathlib.Data.List.Induction

/-!
The merge loop of passN in pedsort.C. Each turn looks for the least word among the
inputs, adds up the counts of the inputs that have it, writes the record and copies
the postings. In the last pass it also enters the word and the offset of its record
into the word database, which is cut into shards.

On files of records the loop computes the merge of `MultiMerge`, record for record.
-/
namespace Mosbench.Psearchy

open List Bytes

/-- `struct w2p_db`: an open database is the list of its keys and offsets. `shards` are
the databases closed so far, so their number is `sid`. -/
structure W2p where
  count : ℕ
  db : Option (List (List Byte × ℕ))
  shards : List (List (List Byte × ℕ))
  deriving DecidableEq

namespace W2p

def empty : W2p := ⟨0, none, []⟩

def w2pOpen (w : W2p) : W2p := { w with db := some [], count := 0 }

def w2pClose (w : W2p) : W2p := { w with db := none, shards := w.shards ++ w.db.toList }

/-- put with DB_NOOVERWRITE: a key that is there keeps its offset. -/
def insert (w : W2p) (word : List Byte) (offset : ℕ) : W2p :=
  { w with db := w.db.map fun db => if db.any fun e => e.1 = word then db else db ++ [(word, offset)] }

/-- What passN does with one word of the index. With a limit the count goes up twice
for a word. -/
def put (dblim : ℕ) (w : W2p) (word : List Byte) (offset : ℕ) : W2p :=
  let w := if dblim ≠ 0 then
      let w := { w with count := w.count + 1 }
      if w.count > dblim then w.w2pClose else w
    else w
  let w := if w.db.isNone then w.w2pOpen else w
  let w := w.insert word offset
  { w with count := w.count + 1 }

end W2p

/-- One turn of the search for the least word. The mask has an entry for each input
looked at so far. -/
def scan (st : Option (List Byte) × List Bool) (inp : Input) : Option (List Byte) × List Bool :=
  if inp.eof then (st.1, st.2 ++ [false])
  else
    match st.1 with
    | none => (some (cstr inp.word), st.2 ++ [true])
    | some minword =>
      if cstr inp.word < minword then (some (cstr inp.word), st.2.map (fun _ => false) ++ [true])
      else if cstr inp.word = minword then (some minword, st.2 ++ [true])
      else (some minword, st.2 ++ [false])

def findMin (inputs : List Input) : Option (List Byte) × List Bool := inputs.foldl scan (none, [])

namespace Input

def count (inp : Input) (mask : Bool) : ℕ := if mask then (znum inp.fp).1 else 0

/-- The postings of the current record. Their size in bytes is an unsigned int. -/
def copied (inp : Input) (mask : Bool) : List Byte :=
  if mask then (zcopy (znum inp.fp).2 ((znum inp.fp).1 * Slot.size % 2 ^ 32)).1 else []

def advance (inp : Input) (mask : Bool) : Input :=
  if mask then zword (zcopy (znum inp.fp).2 ((znum inp.fp).1 * Slot.size % 2 ^ 32)).2 inp.word else inp

end Input

structure Merge where
  inputs : List Input
  ofp : List Byte
  w2p : W2p
  offset : ℕ

/-- One turn of the loop; `none` when all inputs are at their ends. -/
def mergeStep (dblim : ℕ) (done : Bool) (m : Merge) : Option Merge :=
  match findMin m.inputs with
  | (none, _) => none
  | (some minword, minmask) =>
    let nsum := (List.zipWith Input.count m.inputs minmask).sum % 2 ^ 32
    some {
      inputs := List.zipWith Input.advance m.inputs minmask
      ofp := m.ofp ++ (minword ++ 0 :: (encode 4 nsum ++ (List.zipWith Input.copied m.inputs minmask).flatten))
      w2p := if done then m.w2p.put dblim minword m.offset else m.w2p
      offset := if done then m.offset + (minword.length + 1 + 4 + nsum * Slot.size) else m.offset }

def mergeLoop (dblim : ℕ) (done : Bool) : ℕ → Merge → Merge
  | 0, m => m
  | fuel + 1, m =>
    match mergeStep dblim done m with
    | none => m
    | some m' => mergeLoop dblim done fuel m'

def Merge.unread (m : Merge) : ℕ := (m.inputs.map fun inp => if inp.eof then 0 else inp.fp.length + 1).sum

def mergeFiles (maxwordlen dblim : ℕ) (done : Bool) (files : List (List Byte)) : Merge :=
  let m : Merge := ⟨files.map (Input.fopen maxwordlen), [], .empty, 0⟩
  mergeLoop dblim done m.unread m

def Input.key (inp : Input) : Option (List Byte) := if inp.eof then none else some (cstr inp.word)

def minKey (inputs : List Input) : Option (List Byte) := (inputs.filterMap Input.key).min?

def inMask (k : Option (List Byte)) (inp : Input) : Bool := inp.key.any fun w => some w = k

theorem minKey_concat_none (hx : x.key = none) : minKey (inputs ++ [x]) = minKey inputs := by
  rw [minKey, filterMap_append, filterMap_cons_none hx, filterMap_nil, append_nil, minKey]

theorem minKey_concat_some (hx : x.key = some w) :
    minKey (inputs ++ [x]) = some (match minKey inputs with | none => w | some k => min k w) := by
  rw [minKey, filterMap_append, filterMap_cons_some hx, filterMap_nil, minKey]
  cases h : (inputs.filterMap Input.key).min? with
  | none =>
    rw [min?_eq_none_iff] at h
    rw [h]
    rfl
  | some k =>
    obtain ⟨hk, hle⟩ := min?_eq_some_iff.mp h
    rw [min?_eq_some_iff]
    dsimp only
    constructor
    · rcases min_choice k w with hmin | hmin <;> rw [hmin]
      · exact mem_append_left _ hk
      · exact mem_append_right _ mem_cons_self
    · intro b hb
      rcases mem_append.mp hb with hb | hb
      · exact (min_le_left k w).trans (hle b hb)
      · rw [mem_singleton.mp hb]
        exact min_le_right k w

theorem le_key (hk : minKey inputs = some k) (hinp : inp ∈ inputs)
    (hw : inp.key = some w) : k ≤ w :=
  (min?_eq_some_iff.mp hk).2 w (mem_filterMap.mpr ⟨inp, hinp, hw⟩)

theorem findMin_eq (inputs : List Input) : findMin inputs = (minKey inputs, inputs.map (inMask (minKey inputs))) := by
  induction inputs using reverseRecOn with
  | nil => rfl
  | append_singleton inputs x ih =>
    rw [findMin, foldl_append, ← findMin, ih, foldl_cons, foldl_nil, map_append]
    cases hx : x.key with
    | none =>
      have heof : x.eof = true := by simpa [Input.key] using hx
      rw [scan, if_pos heof, minKey_concat_none hx]
      simp [inMask, hx]
    | some w =>
      have heof : ¬ x.eof = true := fun h => by simp [Input.key, h] at hx
      have hword : cstr x.word = w := by simpa [Input.key, heof] using hx
      rw [scan, if_neg heof, hword, minKey_concat_some hx]
      cases hk : minKey inputs with
      | none =>
        rw [minKey, min?_eq_none_iff, filterMap_eq_nil_iff] at hk
        have hnone : ∀ v, ∀ inp ∈ inputs, inMask v inp = false := fun v inp hinp => by simp [inMask, hk inp hinp]
        rw [map_congr_left (hnone none), map_congr_left (hnone (some w))]
        simp [inMask, hx]
      | some k =>
        dsimp only
        by_cases hlt : w < k
        · -- nobody before offers the new least word
          have hnone : ∀ inp ∈ inputs, inMask (some w) inp = false := by
            intro inp hinp
            cases hi : inp.key with
            | none => simp [inMask, hi]
            | some v =>
              have hle := le_key hk hinp hi
              simpa [inMask, hi] using (hlt.trans_le hle).ne'
          rw [if_pos hlt, min_eq_right hlt.le, map_map, map_congr_left hnone]
          simp [inMask, hx]
        · rw [if_neg hlt, min_eq_left (not_lt.mp hlt)]
          by_cases heq : w = k
          · rw [if_pos heq]
            simp [inMask, hx, heq]
          · rw [if_neg heq]
            simp [inMask, hx, heq]

section Records

open MultiMerge

def Input.Holds (maxwordlen : ℕ) (inp : Input) (rs : List Record) : Prop :=
  inp.Reads maxwordlen rs ∧ ∀ r ∈ rs, r.WellFormed maxwordlen

namespace Input.Holds

variable {inp : Input}

theorem key_eq (h : inp.Holds maxwordlen rs) : inp.key = rs.head?.map Prod.fst := by
  obtain ⟨⟨-, hreads⟩, -⟩ := h
  cases rs with
  | nil => simpa [key] using hreads
  | cons r rs =>
    obtain ⟨heof, hword, -⟩ := hreads
    rw [key, heof, hword]
    rfl

theorem minKey_eq (h : Forall₂ (Holds maxwordlen) inputs ts) : minKey inputs = (heads ts).min? := by
  have hkeys : inputs.filterMap key = heads ts := by
    induction h with
    | nil => rfl
    | cons hinp _ ih =>
      rw [heads, filterMap_cons, filterMap_cons, hinp.key_eq, ih]
      rfl
  rw [minKey, hkeys]

theorem pop (h : inp.Holds maxwordlen rs) (k : List Byte) :
    inp.count (inMask (some k) inp) = (pop k rs).1.length ∧
      inp.copied (inMask (some k) inp) = slotBytes (MultiMerge.pop k rs).1 ∧
      (inp.advance (inMask (some k) inp)).Holds maxwordlen (MultiMerge.pop k rs).2 := by
  have hkey := h.key_eq
  cases rs with
  | nil =>
    have hmask : inMask (some k) inp = false := by simp [inMask, hkey]
    rw [hmask]
    exact ⟨rfl, rfl, h⟩
  | cons r rs =>
    rw [MultiMerge.pop]
    split_ifs with hk
    · have hmask : inMask (some k) inp = true := by simp [inMask, hkey, hk]
      obtain ⟨⟨hlen, -, -, hfp⟩, hwf⟩ := h
      obtain ⟨hr, hrs⟩ := forall_mem_cons.mp hwf
      have hshort := hr.short
      have hnum : znum inp.fp = (r.2.length, slotBytes r.2 ++ fileBytes rs) := by
        rw [hfp, znum_encode (by omega)]
      have hsize : r.2.length * Slot.size % 2 ^ 32 = (slotBytes r.2).length := by
        rw [length_slotBytes, Slot.size, Nat.mod_eq_of_lt (by omega)]
      have hcopy : zcopy (znum inp.fp).2 ((znum inp.fp).1 * Slot.size % 2 ^ 32) = (slotBytes r.2, fileBytes rs) := by
        rw [hnum, hsize, zcopy_append rfl]
      rw [hmask, count, copied, advance, if_pos rfl, if_pos rfl, if_pos rfl, hcopy, hnum]
      exact ⟨rfl, rfl, reads_zword hrs hlen, hrs⟩
    · have hmask : inMask (some k) inp = false := by simpa [inMask, hkey] using hk
      rw [hmask]
      exact ⟨rfl, rfl, h⟩

end Input.Holds

def enter (dblim : ℕ) (st : W2p × ℕ) (r : Record) : W2p × ℕ :=
  (st.1.put dblim r.1 st.2, st.2 + (r.1.length + 1 + 4 + r.2.length % 2 ^ 32 * Slot.size))

def entered (dblim : ℕ) (done : Bool) (st : W2p × ℕ) (rs : List Record) : W2p × ℕ :=
  if done then rs.foldl (enter dblim) st else st

variable {ts : List (List Record)}

theorem mergeStep_none (h : Forall₂ (Input.Holds maxwordlen) m.inputs ts)
    (hstep : step ts = none) : mergeStep dblim done m = none := by
  have hmin : minKey m.inputs = none := by
    rw [Input.Holds.minKey_eq h]
    simpa [step] using hstep
  rw [mergeStep, findMin_eq, hmin]

theorem mergeStep_some (dblim : ℕ) (done : Bool) {e : Record}
    (h : Forall₂ (Input.Holds maxwordlen) m.inputs ts) (hstep : step ts = some (e, ts')) :
    ∃ m', mergeStep dblim done m = some m' ∧ Forall₂ (Input.Holds maxwordlen) m'.inputs ts' ∧
      m'.ofp = m.ofp ++ e.toBytes ∧ (m'.w2p, m'.offset) = entered dblim done (m.w2p, m.offset) [e] := by
  have hmin : minKey m.inputs = some e.1 := by
    rw [Input.Holds.minKey_eq h]
    obtain ⟨k, hk, heq⟩ := Option.map_eq_some_iff.mp hstep
    rw [hk, ← congrArg (fun r => r.1.1) heq]
  obtain ⟨-, -, hvals, rfl⟩ := step_eq_some hstep
  have hpop := h.imp fun _ _ hinp => hinp.pop e.1
  have hcount : m.inputs.map (fun inp => inp.count (inMask (some e.1) inp)) = ts.map fun t => (pop e.1 t).1.length := by
    rw [← forall₂_eq_eq_eq, forall₂_map_left_iff, forall₂_map_right_iff]
    exact hpop.imp fun _ _ hinp => hinp.1
  have hcopied : m.inputs.map (fun inp => inp.copied (inMask (some e.1) inp)) =
      ts.map fun t => slotBytes (pop e.1 t).1 := by
    rw [← forall₂_eq_eq_eq, forall₂_map_left_iff, forall₂_map_right_iff]
    exact hpop.imp fun _ _ hinp => hinp.2.1
  have hsum : (m.inputs.map fun inp => inp.count (inMask (some e.1) inp)).sum = e.2.length := by
    rw [hcount, hvals, length_flatMap]
  have hflat : (m.inputs.map fun inp => inp.copied (inMask (some e.1) inp)).flatten = slotBytes e.2 := by
    rw [hcopied, hvals, slotBytes, flatMap_assoc, flatMap_def]
    rfl
  rw [mergeStep, findMin_eq, hmin]
  simp only [zipWith_map_right, zipWith_self, hsum, hflat]
  refine ⟨_, rfl, ?_, ?_, ?_⟩
  · rw [forall₂_map_left_iff, forall₂_map_right_iff]
    exact hpop.imp fun _ _ hinp => hinp.2.2
  · have hmod : encode 4 (e.2.length % 2 ^ 32) = encode 4 e.2.length := encode_mod 4 e.2.length
    rw [Record.toBytes, ← hmod]
  · cases done <;> rfl

theorem entered_append (dblim : ℕ) (done : Bool) (st : W2p × ℕ) (l rs : List Record) :
    entered dblim done st (l ++ rs) = entered dblim done (entered dblim done st l) rs := by
  cases done with
  | false => rfl
  | true => exact foldl_append

theorem mergeLoop_spec (h : Forall₂ (Input.Holds maxwordlen) m.inputs ts)
    (hfuel : size ts ≤ fuel) :
    (mergeLoop dblim done fuel m).ofp = m.ofp ++ fileBytes (merge ts) ∧
      ((mergeLoop dblim done fuel m).w2p, (mergeLoop dblim done fuel m).offset) =
        entered dblim done (m.w2p, m.offset) (merge ts) := by
  induction ts using merge_induction generalizing m fuel with
  | hnone ts hstep =>
    rw [merge_of_none hstep]
    have hloop : mergeLoop dblim done fuel m = m := by
      cases fuel with
      | zero => rfl
      | succ fuel => rw [mergeLoop, mergeStep_none h hstep]
    rw [hloop]
    exact ⟨(append_nil _).symm, by cases done <;> rfl⟩
  | hsome ts e ts' hstep ih =>
    have hlt := size_step hstep
    obtain ⟨fuel, rfl⟩ : ∃ n, fuel = n + 1 := ⟨fuel - 1, by omega⟩
    obtain ⟨m', hm', hholds, hofp, hdb⟩ := mergeStep_some dblim done h hstep
    obtain ⟨hofp', hdb'⟩ := ih hholds (show size ts' ≤ fuel by omega)
    rw [merge_of_some hstep, mergeLoop, hm']
    dsimp only
    rw [hofp', hdb', hofp, hdb, fileBytes_cons, append_assoc, ← entered_append]
    exact ⟨rfl, rfl⟩

theorem length_le_fileBytes (rs : List Record) : rs.length ≤ (fileBytes rs).length := by
  induction rs with
  | nil => exact le_rfl
  | cons r rs ih =>
    rw [fileBytes_cons, Record.toBytes, length_append, length_append, length_cons, length_cons]
    omega

theorem size_le_unread {m : Merge} (h : Forall₂ (Input.Holds maxwordlen) m.inputs ts) :
    size ts ≤ m.unread := by
  rw [Merge.unread, size]
  generalize m.inputs = inputs at h ⊢
  induction h with
  | nil => exact le_rfl
  | @cons inp rs inputs ts hinp _ ih =>
    rw [map_cons, map_cons, sum_cons, sum_cons]
    refine Nat.add_le_add ?_ ih
    obtain ⟨⟨-, hreads⟩, -⟩ := hinp
    cases rs with
    | nil => exact Nat.zero_le _
    | cons r rs =>
      obtain ⟨heof, -, hfp⟩ := hreads
      have hle := length_le_fileBytes rs
      rw [if_neg (by simp [heof]), hfp, length_append, length_append, length_cons]
      omega

theorem mergeFiles_spec (dblim : ℕ) (done : Bool) (h : ∀ t ∈ ts, ∀ r ∈ t, r.WellFormed maxwordlen) :
    (mergeFiles maxwordlen dblim done (ts.map fileBytes)).ofp = fileBytes (merge ts) ∧
      ((mergeFiles maxwordlen dblim done (ts.map fileBytes)).w2p,
        (mergeFiles maxwordlen dblim done (ts.map fileBytes)).offset) = entered dblim done (.empty, 0) (merge ts) := by
  have hholds : Forall₂ (Input.Holds maxwordlen) ((ts.map fileBytes).map (Input.fopen maxwordlen)) ts := by
    rw [forall₂_map_left_iff, forall₂_map_left_iff, forall₂_same]
    exact fun t ht => ⟨Input.reads_fopen (h t ht), h t ht⟩
  exact mergeLoop_spec (m := ⟨_, [], .empty, 0⟩) hholds (size_le_unread (m := ⟨_, [], .empty, 0⟩) hholds)

end Records

variable (fp buf : List Byte) (i : ℕ)

theorem zwordLoop_rest :
    (zwordLoop fp buf i).2.2.length ≤ fp.length ∧ (fp ≠ [] → (zwordLoop fp buf i).2.2.length < fp.length) := by
  induction fp generalizing buf i with
  | nil => exact ⟨le_rfl, fun h => absurd rfl h⟩
  | cons c fp ih =>
    rw [zwordLoop]
    generalize (if i < buf.length then (buf.set i c, i + 1) else (buf, i)) = next
    dsimp only
    split_ifs with hc
    · exact ⟨Nat.le_succ _, fun _ => Nat.lt_succ_self _⟩
    · have hle := (ih next.1 next.2).1
      exact ⟨hle.trans (Nat.le_succ _), fun _ => Nat.lt_succ_of_le hle⟩

theorem unread_zword :
    (if (Input.zword fp buf).eof then 0 else (Input.zword fp buf).fp.length + 1) ≤ fp.length := by
  cases fp with
  | nil =>
    have heof : (Input.zword [] buf).eof = true := rfl
    rw [if_pos heof]
    exact le_rfl
  | cons c fp =>
    have hlt := (zwordLoop_rest (c :: fp) buf 0).2 (cons_ne_nil c fp)
    split_ifs
    · exact Nat.zero_le _
    · exact hlt

theorem unread_mergeStep (h : mergeStep dblim done m = some m') :
    m'.unread < m.unread := by
  rw [mergeStep, findMin_eq] at h
  cases hk : minKey m.inputs with
  | none => simp [hk] at h
  | some k =>
    simp only [hk, Option.some.injEq] at h
    subst h
    rw [Merge.unread, Merge.unread, zipWith_map_right, zipWith_self, map_map]
    have hlt : ∀ inp : Input, inMask (some k) inp = true →
        (if (inp.advance (inMask (some k) inp)).eof then 0 else (inp.advance (inMask (some k) inp)).fp.length + 1) <
          if inp.eof then 0 else inp.fp.length + 1 := by
      intro inp hmask
      have heof : inp.eof = false := by
        cases heof : inp.eof with
        | false => rfl
        | true => simp [inMask, Input.key, heof] at hmask
      have hle := unread_zword (zcopy (znum inp.fp).2 ((znum inp.fp).1 * Slot.size % 2 ^ 32)).2 inp.word
      rw [hmask, Input.advance, if_pos rfl, heof, if_neg Bool.false_ne_true]
      rw [zcopy, znum, length_drop, length_drop] at hle
      exact Nat.lt_succ_of_le (hle.trans (by omega))
    refine sum_lt_sum _ _ (fun inp _ => ?_) ?_
    · by_cases hmask : inMask (some k) inp = true
      · exact (hlt inp hmask).le
      · simp [hmask, Input.advance]
    · obtain ⟨inp, hinp, hkey⟩ := mem_filterMap.mp (min?_eq_some_iff.mp hk).1
      exact ⟨inp, hinp, hlt inp (by simp [inMask, hkey])⟩

theorem mergeLoop_ends (h : m.unread ≤ fuel) :
    mergeStep dblim done (mergeLoop dblim done fuel m) = none := by
  induction fuel generalizing m with
  | zero =>
    rw [mergeLoop]
    cases hm : mergeStep dblim done m with
    | none => rfl
    | some m' =>
      have := unread_mergeStep hm
      omega
  | succ fuel ih =>
    rw [mergeLoop]
    cases hm : mergeStep dblim done m with
    | none => exact hm
    | some m' =>
      have := unread_mergeStep hm
      exact ih (by omega)

structure Input.Sound (inp : Input) : Prop where
  buffer : 0 < inp.word.length
  ended : inp.eof = true → inp.fp = []

theorem length_zwordLoop : (zwordLoop fp buf i).2.1.length = buf.length := by
  induction fp generalizing buf i with
  | nil => rfl
  | cons c fp ih =>
    rw [zwordLoop]
    split_ifs
    · exact length_set
    · exact (ih _ _).trans length_set
    · rfl
    · exact ih _ _

theorem le_zwordLoop : i ≤ (zwordLoop fp buf i).1 := by
  induction fp generalizing buf i with
  | nil => exact le_rfl
  | cons c fp ih =>
    rw [zwordLoop]
    split_ifs
    · exact Nat.le_succ i
    · exact (Nat.le_succ i).trans (ih _ _)
    · exact le_rfl
    · exact ih _ _

theorem Input.sound_zword {buf : List Byte} (hbuf : 0 < buf.length) : (Input.zword fp buf).Sound := by
  constructor
  · have hlen := length_zwordLoop fp buf 0
    rw [Input.zword, Psearchy.zword]
    dsimp only
    split_ifs
    · rwa [length_set, hlen]
    · rwa [hlen]
  · intro heof
    cases fp with
    | nil => rfl
    | cons c fp =>
      -- the first byte goes into the buffer
      have hzero : (zwordLoop (c :: fp) buf 0).1 = 0 := of_decide_eq_true heof
      rw [zwordLoop, if_pos hbuf] at hzero
      dsimp only at hzero
      split_ifs at hzero
      have hle := le_zwordLoop fp (buf.set 0 c) (0 + 1)
      omega

theorem Input.Sound.advance {inp : Input} (h : inp.Sound) (mask : Bool) : (inp.advance mask).Sound := by
  rw [Input.advance]
  split_ifs
  · exact Input.sound_zword _ h.buffer
  · exact h

section Ends

theorem inputs_mergeStep (h : mergeStep dblim done m = some m') :
    ∃ k, m'.inputs = m.inputs.map fun inp => inp.advance (inMask (some k) inp) := by
  rw [mergeStep, findMin_eq] at h
  cases hk : minKey m.inputs with
  | none => simp [hk] at h
  | some k =>
    simp only [hk, Option.some.injEq] at h
    subst h
    exact ⟨k, by rw [zipWith_map_right, zipWith_self]⟩

/-- What holds of an input and stays so when it moves on holds of every input at the end. -/
theorem inputs_mergeLoop {P : List Input → Prop}
    (hP : ∀ inputs k, P inputs → P (inputs.map fun inp => inp.advance (inMask (some k) inp)))
    (fuel : ℕ) (hm : P m.inputs) : P (mergeLoop dblim done fuel m).inputs := by
  induction fuel generalizing m with
  | zero => exact hm
  | succ fuel ih =>
    rw [mergeLoop]
    cases hstep : mergeStep dblim done m with
    | none => exact hm
    | some m' =>
      obtain ⟨k, hk⟩ := inputs_mergeStep hstep
      exact ih (hk ▸ hP m.inputs k hm)

theorem eof_of_mergeStep (h : mergeStep dblim done m = none) : ∀ inp ∈ m.inputs, inp.eof = true := by
  rw [mergeStep, findMin_eq] at h
  cases hk : minKey m.inputs with
  | some k => simp [hk] at h
  | none =>
    intro inp hinp
    rw [minKey, min?_eq_none_iff, filterMap_eq_nil_iff] at hk
    simpa [Input.key] using hk inp hinp

end Ends

theorem mergeFiles_ends (maxwordlen dblim : ℕ) (done : Bool) (files : List (List Byte)) :
    mergeStep dblim done (mergeFiles maxwordlen dblim done files) = none ∧
      (mergeFiles maxwordlen dblim done files).inputs.length = files.length ∧
      ∀ inp ∈ (mergeFiles maxwordlen dblim done files).inputs, inp.eof = true ∧ inp.fp = [] := by
  have hstep : mergeStep dblim done (mergeFiles maxwordlen dblim done files) = none :=
    mergeLoop_ends (m := ⟨files.map (Input.fopen maxwordlen), [], .empty, 0⟩) le_rfl
  have hinputs : (mergeFiles maxwordlen dblim done files).inputs.length = files.length ∧
      ∀ inp ∈ (mergeFiles maxwordlen dblim done files).inputs, inp.Sound := by
    refine inputs_mergeLoop (P := fun inputs => inputs.length = files.length ∧ ∀ inp ∈ inputs, inp.Sound)
      (fun inputs k h => ⟨(length_map _).trans h.1, fun inp hinp => ?_⟩) _ ⟨length_map _, fun inp hinp => ?_⟩
    · obtain ⟨inp, hmem, rfl⟩ := mem_map.mp hinp
      exact (h.2 inp hmem).advance _
    · obtain ⟨file, -, rfl⟩ := mem_map.mp hinp
      exact Input.sound_zword _ (by simp)
  refine ⟨hstep, hinputs.1, fun inp hinp => ?_⟩
  have heof := eof_of_mergeStep hstep inp hinp
  exact ⟨heof, (hinputs.2 inp hinp).ended heof⟩

end Mosbench.Psearchy
