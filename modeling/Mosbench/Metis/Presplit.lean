import Mosbench.Lib.Bytes

/-!
Cutting the input into splits before the run: presplitter_init in presplitter.c asks a splitter for
splits until there are no more. Here the splitters are defsplitter in defsplitter.c, for data of a
fixed alignment, and wordcount_splitter in wc.c, which cuts a text between words.

A splitter hands out data of at least one byte only if its split size is not zero. If the size is
zero, it can return the same empty split for ever.
-/
namespace Mosbench.Metis

open List Option Bytes

structure Split where
  data : ℕ
  length : ℕ
  deriving DecidableEq

/-- The loop of presplitter_init. The array of splits grows with their number. -/
def presplitLoop {S : Type} (split : S → Option (Split × S)) : ℕ → S → Option (List Split)
  | 0, _ => none
  | fuel + 1, s =>
    match split s with
    | none => some []
    | some (ma, s) => (presplitLoop split fuel s).map (ma :: ·)

def presplit {S : Type} (split : S → Option (Split × S)) (fuel : ℕ) (s : S) : Option (List Split) :=
  (presplitLoop split fuel s).bind fun ma => if ma = [] then none else some ma

def defNsplitsPerCore : ℕ := 16

def splitCount (ncores nsplits : ℕ) : ℕ := if nsplits = 0 then ncores * defNsplitsPerCore else nsplits

structure DefSplitter where
  splitPos : ℕ
  dataSize : ℕ
  nsplits : ℕ
  align : ℕ
  deriving DecidableEq

def rounddown (a n : ℕ) : ℕ := a - a % n

def defsplitterInit (dataSize nsplits align : ℕ) : Option DefSplitter :=
  if align = 0 ∨ dataSize % align ≠ 0 then none else some ⟨0, dataSize, nsplits, align⟩

def defsplitter (ncores : ℕ) (ds : DefSplitter) : Option (Split × DefSplitter) :=
  if ds.splitPos ≥ ds.dataSize then none
  else
    let nsplits := splitCount ncores ds.nsplits
    let splitSize := rounddown (ds.dataSize / nsplits) ds.align
    let length := if ds.splitPos + splitSize > ds.dataSize then ds.dataSize - ds.splitPos else splitSize
    some (⟨ds.splitPos, length⟩, { ds with splitPos := ds.splitPos + splitSize, nsplits := nsplits })

def delimiter (c : Byte) : Bool := c = 32 || c = 9 || c = 13 || c = 10 || c = 0

def toDelimiter : List Byte → ℕ
  | [] => 0
  | c :: rest => if delimiter c then 0 else toDelimiter rest + 1

/-- wc_data_t together with the static `nsplits`. -/
structure WcData where
  fpos : ℕ
  fdata : List Byte
  nsplits : ℕ
  deriving DecidableEq

def WcData.flen (d : WcData) : ℕ := d.fdata.length

def wordcountSplitter (ncores : ℕ) (d : WcData) : Option (Split × WcData) :=
  let nsplits := splitCount ncores d.nsplits
  let splitSize := d.flen / nsplits
  if d.fpos ≥ d.flen then none
  else
    let length := if d.fpos + splitSize > d.flen then d.flen - d.fpos else splitSize
    let length := length + toDelimiter (d.fdata.drop (d.fpos + length))
    some (⟨d.fpos, length⟩, { d with fpos := d.fpos + length, nsplits := nsplits })

def Tiles : ℕ → List Split → ℕ → Prop
  | start, [], stop => start = stop
  | start, ma :: mas, stop => ma.data = start ∧ Tiles (start + ma.length) mas stop

section Runs

theorem presplitLoop_unique (h : presplitLoop split fuel s = some mas)
    (h' : presplitLoop split fuel' s = some mas') : mas = mas' := by
  induction fuel generalizing fuel' s mas mas' with
  | zero => cases h
  | succ fuel ih =>
    cases fuel' with
    | zero => cases h'
    | succ fuel' =>
      rw [presplitLoop] at h h'
      cases hs : split s with
      | none =>
        rw [hs] at h h'
        exact (some.inj h).symm.trans (some.inj h')
      | some r =>
        obtain ⟨ma, s'⟩ := r
        rw [hs] at h h'
        obtain ⟨rest, hrest, rfl⟩ := map_eq_some_iff.mp h
        obtain ⟨rest', hrest', rfl⟩ := map_eq_some_iff.mp h'
        rw [ih hrest hrest']

/-- A splitter that moves on with each split comes to the end of the data. It may step over the end,
but its last split does not. -/
theorem exists_presplitLoop (pos : S → ℕ) (size : ℕ) (Inv : S → Prop) (Good : Split → Prop)
    (hend : ∀ s, Inv s → size ≤ pos s → split s = none)
    (hstep : ∀ s, Inv s → pos s < size → ∃ ma s', split s = some (ma, s') ∧ Inv s' ∧ ma.data = pos s ∧ 0 < ma.length ∧
      min (pos s') size = pos s + ma.length ∧ Good ma) (hs : Inv s) (hfuel : size < fuel + pos s) (hpos : 0 < fuel) :
    ∃ mas, presplitLoop split fuel s = some mas ∧ Tiles (min (pos s) size) mas size ∧ ∀ ma ∈ mas, Good ma := by
  induction fuel generalizing s with
  | zero => omega
  | succ fuel ih =>
    rw [presplitLoop]
    rcases Nat.lt_or_ge (pos s) size with hlt | hge
    · obtain ⟨ma, s', hsplit, hs', hdata, hlen, hnext, hgood⟩ := hstep s hs hlt
      rw [hsplit]
      obtain ⟨mas, hrun, htiles, hall⟩ := ih hs' (by omega) (by omega)
      refine ⟨ma :: mas, by dsimp only; rw [hrun]; rfl, ⟨by rw [hdata]; omega, ?_⟩, forall_mem_cons.mpr ⟨hgood, hall⟩⟩
      rwa [min_eq_left hlt.le, ← hnext]
    · rw [hend s hs hge]
      exact ⟨[], rfl, min_eq_right hge, fun ma hma => absurd hma not_mem_nil⟩

theorem presplitLoop_endless (Inv : S → Prop) (hstep : ∀ s, Inv s → ∃ ma s', split s = some (ma, s') ∧ Inv s') (hs : Inv s)
    (fuel : ℕ) : presplitLoop split fuel s = none := by
  induction fuel generalizing s with
  | zero => rfl
  | succ fuel ih =>
    obtain ⟨ma, s', hsplit, hs'⟩ := hstep s hs
    rw [presplitLoop, hsplit]
    dsimp only
    rw [ih hs']
    rfl

theorem presplit_eq_some : presplit split fuel s = some mas ↔
    presplitLoop split fuel s = some mas ∧ mas ≠ [] := by
  rw [presplit, bind_eq_some_iff]
  constructor
  · rintro ⟨mas', hrun, hmas⟩
    split_ifs at hmas with hne
    obtain rfl := some.inj hmas
    exact ⟨hrun, hne⟩
  · rintro ⟨hrun, hne⟩
    exact ⟨mas, hrun, if_neg hne⟩

theorem Tiles.ne_nil (h : Tiles 0 mas size) (hsize : 0 < size) : mas ≠ [] := by
  rintro rfl
  exact hsize.ne h

theorem presplit_iff {Q : List Split → Prop}
    (hrun : P → ∃ fuel mas, presplitLoop split fuel s = some mas ∧ mas ≠ [] ∧ Q mas)
    (hendless : ¬ P → ∀ fuel, presplitLoop split fuel s = none) :
    ((∃ fuel mas, presplit split fuel s = some mas) ↔ P) ∧ ∀ fuel mas, presplit split fuel s = some mas → Q mas := by
  have hends : ∀ {fuel mas}, presplit split fuel s = some mas → P := by
    intro fuel mas hmas
    by_contra hP
    rw [presplit_eq_some, hendless hP] at hmas
    cases hmas.1
  refine ⟨⟨?_, fun hP => ?_⟩, fun fuel mas hmas => ?_⟩
  · rintro ⟨fuel, mas, hmas⟩
    exact hends hmas
  · obtain ⟨fuel, mas, hloop, hne, -⟩ := hrun hP
    exact ⟨fuel, mas, presplit_eq_some.mpr ⟨hloop, hne⟩⟩
  · obtain ⟨fuel', mas', hloop, -, hQ⟩ := hrun (hends hmas)
    rwa [presplitLoop_unique (presplit_eq_some.mp hmas).1 hloop]

end Runs

theorem splitCount_pos (hcores : 0 < ncores) : 0 < splitCount ncores nsplits := by
  rw [splitCount, defNsplitsPerCore]
  split_ifs <;> omega

theorem splitCount_self (hpos : 0 < nsplits) : splitCount ncores nsplits = nsplits :=
  if_neg hpos.ne'

section Def

variable {dataSize nsplits align : ℕ}

/-- The split size is zero if the data has less than `align` bytes for each split. -/
theorem rounddown_pos_iff (halign : 0 < align) (hn : 0 < n) :
    0 < rounddown (dataSize / n) align ↔ n * align ≤ dataSize := by
  have heq : rounddown (dataSize / n) align = align * (dataSize / (n * align)) := by
    have hdiv := Nat.div_add_mod (dataSize / n) align
    rw [rounddown, ← Nat.div_div_eq_div_mul]
    omega
  rw [heq, Nat.mul_pos_iff_of_pos_left halign, Nat.div_pos_iff]
  exact and_iff_right (Nat.mul_pos hn halign)

/-- Only the position changes, and the number of splits from 0 to the default. -/
structure DefSplitter.Of (ncores dataSize nsplits align : ℕ) (ds : DefSplitter) : Prop where
  dataSize : ds.dataSize = dataSize
  align : ds.align = align
  nsplits : splitCount ncores ds.nsplits = splitCount ncores nsplits

theorem DefSplitter.Of.step (hcores : 0 < ncores) (h : ds.Of ncores dataSize nsplits align) (hlt : ds.splitPos < dataSize) :
    ∃ ma ds', defsplitter ncores ds = some (ma, ds') ∧ ds'.Of ncores dataSize nsplits align ∧ ma.data = ds.splitPos ∧
      ds'.splitPos = ds.splitPos + rounddown (dataSize / splitCount ncores nsplits) align ∧
      ma.length = min (rounddown (dataSize / splitCount ncores nsplits) align) (dataSize - ds.splitPos) := by
  have hstep : defsplitter ncores ds = some (_, _) := if_neg (by rw [h.dataSize]; omega)
  refine ⟨_, _, hstep, ⟨h.dataSize, h.align, ?_⟩, rfl, ?_, ?_⟩
  · exact (splitCount_self (splitCount_pos hcores)).trans h.nsplits
  · dsimp only
    rw [h.dataSize, h.align, h.nsplits]
  · dsimp only
    rw [h.dataSize, h.align, h.nsplits]
    split_ifs <;> omega

theorem exists_presplit_defsplitter (hcores : 0 < ncores) (halign : 0 < align)
    (hsize : splitCount ncores nsplits * align ≤ dataSize) :
    ∃ mas, presplitLoop (defsplitter ncores) (dataSize + 1) ⟨0, dataSize, nsplits, align⟩ = some mas ∧
      Tiles 0 mas dataSize ∧ ∀ ma ∈ mas, 0 < ma.length := by
  have hpos := (rounddown_pos_iff halign (splitCount_pos hcores)).mpr hsize
  rw [← Nat.zero_min dataSize]
  refine exists_presplitLoop DefSplitter.splitPos dataSize (DefSplitter.Of ncores dataSize nsplits align)
    (fun ma => 0 < ma.length) ?_ ?_ ⟨rfl, rfl, rfl⟩ (Nat.lt_succ_self _) (Nat.succ_pos _)
  · intro ds h hle
    exact if_pos (by rw [h.dataSize]; exact hle)
  · intro ds h hlt
    obtain ⟨ma, ds', hstep, h', hdata', hnext, hlen⟩ := h.step hcores hlt
    exact ⟨ma, ds', hstep, h', hdata', by omega, by omega, by omega⟩

theorem presplit_defsplitter_endless (hcores : 0 < ncores) (hdata : 0 < dataSize) (halign : 0 < align)
    (hsize : ¬ splitCount ncores nsplits * align ≤ dataSize) (fuel : ℕ) :
    presplitLoop (defsplitter ncores) fuel ⟨0, dataSize, nsplits, align⟩ = none := by
  have hzero : rounddown (dataSize / splitCount ncores nsplits) align = 0 :=
    Nat.eq_zero_of_not_pos (mt (rounddown_pos_iff halign (splitCount_pos hcores)).mp hsize)
  have hstart : DefSplitter.Of ncores dataSize nsplits align ⟨0, dataSize, nsplits, align⟩ := ⟨rfl, rfl, rfl⟩
  refine presplitLoop_endless (fun ds => ds.Of ncores dataSize nsplits align ∧ ds.splitPos = 0) ?_ ⟨hstart, rfl⟩ fuel
  rintro ds ⟨h, hpos⟩
  obtain ⟨ma, ds', hstep, h', -, hnext, -⟩ := h.step hcores (by omega)
  exact ⟨ma, ds', hstep, h', by omega⟩

end Def

section Words

theorem toDelimiter_le (l : List Byte) : toDelimiter l ≤ l.length := by
  induction l with
  | nil => exact le_rfl
  | cons c l ih =>
    rw [toDelimiter]
    split_ifs
    · exact Nat.zero_le _
    · exact Nat.succ_le_succ ih

theorem drop_toDelimiter (l : List Byte) : l.drop (toDelimiter l) = [] ∧ (∀ c ∈ l, delimiter c = false) ∨
    ∃ c rest, l.drop (toDelimiter l) = c :: rest ∧ delimiter c = true := by
  induction l with
  | nil => exact .inl ⟨rfl, fun c hc => absurd hc not_mem_nil⟩
  | cons c l ih =>
    rw [toDelimiter]
    by_cases hc : delimiter c = true
    · rw [if_pos hc]
      exact .inr ⟨c, l, rfl, hc⟩
    · rw [if_neg hc, drop_succ_cons]
      exact ih.imp_left fun h => ⟨h.1, forall_mem_cons.mpr ⟨by simpa using hc, h.2⟩⟩

variable {nsplits : ℕ}

structure WcData.Of (ncores nsplits : ℕ) (text : List Byte) (d : WcData) : Prop where
  fdata : d.fdata = text
  nsplits : splitCount ncores d.nsplits = splitCount ncores nsplits

def AtBorder (text : List Byte) (ma : Split) : Prop :=
  ma.data + ma.length = text.length ∨ ∃ c rest, text.drop (ma.data + ma.length) = c :: rest ∧ delimiter c = true

theorem WcData.Of.step (hcount : 0 < splitCount ncores nsplits) (h : d.Of ncores nsplits text) (hlt : d.fpos < text.length) :
    ∃ ma d', wordcountSplitter ncores d = some (ma, d') ∧ d'.Of ncores nsplits text ∧ ma.data = d.fpos ∧
      d'.fpos = d.fpos + ma.length ∧ d'.fpos ≤ text.length ∧ AtBorder text ma ∧
      min (text.length / splitCount ncores nsplits) (text.length - d.fpos) ≤ ma.length ∧
      (text.length / splitCount ncores nsplits = 0 → ma.length = toDelimiter (text.drop d.fpos)) := by
  have hflen : d.flen = text.length := congrArg List.length h.fdata
  have hstep : wordcountSplitter ncores d = some (_, _) := if_neg (by rw [hflen]; omega)
  rw [h.fdata, h.nsplits, hflen] at hstep
  set size := text.length / splitCount ncores nsplits with hsize
  have hfirst : ∃ length, (if d.fpos + size > text.length then text.length - d.fpos else size) = length ∧
      d.fpos + length ≤ text.length ∧ length = min size (text.length - d.fpos) :=
    ⟨_, rfl, by split_ifs <;> omega, by split_ifs <;> omega⟩
  obtain ⟨length, hlength, hfit, hmin⟩ := hfirst
  rw [hlength] at hstep
  have hle := toDelimiter_le (text.drop (d.fpos + length))
  rw [length_drop] at hle
  refine ⟨_, _, hstep, ⟨rfl, splitCount_self hcount⟩, rfl, rfl, by dsimp only; omega, ?_,
    by dsimp only; omega, ?_⟩
  · obtain ⟨hnil, -⟩ | ⟨c, rest, hcons, hc⟩ := drop_toDelimiter (text.drop (d.fpos + length))
    · left
      rw [drop_drop, drop_eq_nil_iff] at hnil
      dsimp only
      omega
    · right
      rw [drop_drop, Nat.add_assoc] at hcons
      exact ⟨c, rest, hcons, hc⟩
  · intro hzero
    obtain rfl : length = 0 := by omega
    dsimp only
    rw [Nat.add_zero, Nat.zero_add]

theorem exists_presplit_wordcount (hcount : 0 < splitCount ncores nsplits)
    (hsize : splitCount ncores nsplits ≤ text.length ∨ ∀ c ∈ text, delimiter c = false) :
    ∃ mas, presplitLoop (wordcountSplitter ncores) (text.length + 1) ⟨0, text, nsplits⟩ = some mas ∧
      Tiles 0 mas text.length ∧ ∀ ma ∈ mas, 0 < ma.length ∧ AtBorder text ma := by
  rw [← Nat.zero_min text.length]
  refine exists_presplitLoop WcData.fpos text.length (WcData.Of ncores nsplits text) (fun ma => 0 < ma.length ∧ AtBorder text ma)
    ?_ ?_ ⟨rfl, rfl⟩ (Nat.lt_succ_self _) (Nat.succ_pos _)
  · intro d h hle
    exact if_pos (by rw [WcData.flen, h.fdata]; exact hle)
  · intro d h hlt
    obtain ⟨ma, d', hstep, h', hdata, hnext, hle, hborder, hmin, hzero⟩ := h.step hcount hlt
    have hpos : 0 < ma.length := by
      rcases hsize with hsize | hnone
      · have := Nat.div_pos hsize hcount
        omega
      · rcases Nat.eq_zero_or_pos (text.length / splitCount ncores nsplits) with hz | hpos
        · -- then the first split is the whole text
          rw [hzero hz]
          obtain ⟨hnil, -⟩ | ⟨c, rest, hcons, hc⟩ := drop_toDelimiter (text.drop d.fpos)
          · rw [drop_drop, drop_eq_nil_iff] at hnil
            omega
          · have hmem : c ∈ text := by
              refine mem_of_mem_drop (i := d.fpos) (mem_of_mem_drop (i := toDelimiter (text.drop d.fpos)) ?_)
              rw [hcons]
              exact mem_cons_self
            rw [hnone c hmem] at hc
            cases hc
        · omega
    exact ⟨ma, d', hstep, h', hdata, hpos, by omega, hpos, hborder⟩

theorem presplit_wordcount_endless (hsize : text.length < splitCount ncores nsplits)
    (hc : c ∈ text) (hdelimiter : delimiter c = true) (fuel : ℕ) :
    presplitLoop (wordcountSplitter ncores) fuel ⟨0, text, nsplits⟩ = none := by
  have hcount : 0 < splitCount ncores nsplits := by omega
  have hzero : text.length / splitCount ncores nsplits = 0 := Nat.div_eq_of_lt hsize
  have hstuck : ∀ d : WcData, d.Of ncores nsplits text →
      (∃ c rest, text.drop d.fpos = c :: rest ∧ delimiter c = true) → ∀ fuel, presplitLoop (wordcountSplitter ncores) fuel d = none := by
    intro d hd hat fuel
    refine presplitLoop_endless (fun d => d.Of ncores nsplits text ∧ ∃ c rest, text.drop d.fpos = c :: rest ∧ delimiter c = true)
      ?_ ⟨hd, hat⟩ fuel
    rintro d ⟨h, c, rest, hdrop, hc⟩
    have hlt : d.fpos < text.length := by
      have hlen := congrArg List.length hdrop
      rw [length_drop, length_cons] at hlen
      omega
    obtain ⟨ma, d', hstep, h', -, hnext, -, -, -, hlen⟩ := h.step hcount hlt
    refine ⟨ma, d', hstep, h', c, rest, ?_, hc⟩
    rw [hnext, hlen hzero, hdrop, toDelimiter, if_pos hc, Nat.add_zero, hdrop]
  have hstart : WcData.Of ncores nsplits text ⟨0, text, nsplits⟩ := ⟨rfl, rfl⟩
  cases fuel with
  | zero => rfl
  | succ fuel =>
    obtain ⟨ma, d', hstep, h', hdata, hnext, -, -, -, hlen⟩ := hstart.step hcount (length_pos_of_mem hc)
    rw [presplitLoop, hstep]
    dsimp only
    have hat : ∃ c rest, text.drop d'.fpos = c :: rest ∧ delimiter c = true := by
      rw [hnext, hlen hzero, drop_zero, Nat.zero_add]
      refine (drop_toDelimiter text).resolve_left fun hnone => ?_
      rw [hnone.2 c hc] at hdelimiter
      cases hdelimiter
    rw [hstuck d' h' hat fuel]
    rfl

end Words

/-- presplitter_init comes to an end with defsplitter if and only if there is a unit of data for every
split, and with the splitter of wc.c if and only if there is a byte for every split or no delimiter
in the text. What it comes to are splits that tile the data; those of defsplitter are not empty. -/
theorem splitting_terminates_iff (ncores : ℕ) (hcores : 0 < ncores) (nsplits : ℕ) :
    (∀ dataSize align : ℕ, 0 < dataSize → 0 < align → align ∣ dataSize →
      ∃ ds, defsplitterInit dataSize nsplits align = some ds ∧
        ((∃ fuel mas, presplit (defsplitter ncores) fuel ds = some mas) ↔ splitCount ncores nsplits * align ≤ dataSize) ∧
        ∀ fuel mas, presplit (defsplitter ncores) fuel ds = some mas → Tiles 0 mas dataSize ∧ ∀ ma ∈ mas, 0 < ma.length) ∧
    (∀ text : List Byte, text ≠ [] →
      ((∃ fuel mas, presplit (wordcountSplitter ncores) fuel ⟨0, text, nsplits⟩ = some mas) ↔
        splitCount ncores nsplits ≤ text.length ∨ ∀ c ∈ text, delimiter c = false) ∧
      ∀ fuel mas, presplit (wordcountSplitter ncores) fuel ⟨0, text, nsplits⟩ = some mas → Tiles 0 mas text.length) := by
  constructor
  · intro dataSize align hdata halign hdvd
    have hinit : defsplitterInit dataSize nsplits align = some ⟨0, dataSize, nsplits, align⟩ := by
      rw [defsplitterInit, if_neg]
      rintro (hzero | hmod)
      · omega
      · exact hmod (Nat.mod_eq_zero_of_dvd hdvd)
    refine ⟨_, hinit, presplit_iff (fun hsize => ?_) (presplit_defsplitter_endless hcores hdata halign)⟩
    obtain ⟨mas, hrun, htiles, hpos⟩ := exists_presplit_defsplitter hcores halign hsize
    exact ⟨_, mas, hrun, htiles.ne_nil hdata, htiles, hpos⟩
  · intro text htext
    refine presplit_iff (fun hsize => ?_) fun hsize => ?_
    · obtain ⟨mas, hrun, htiles, -⟩ := exists_presplit_wordcount (splitCount_pos hcores) hsize
      exact ⟨_, mas, hrun, htiles.ne_nil (length_pos_iff.mpr htext), htiles⟩
    · push Not at hsize
      obtain ⟨hlt, c, hc, hdelimiter⟩ := hsize
      exact presplit_wordcount_endless hlt hc (by simpa using hdelimiter)

/-- Sixteen bytes in units of four for three splits on one core, and "a b". -/
theorem splitting_terminates_sixteen :
    (∃ fuel mas, presplit (defsplitter 1) fuel ⟨0, 16, 3, 4⟩ = some mas ∧ Tiles 0 mas 16 ∧ ∀ ma ∈ mas, 0 < ma.length) ∧
      ∃ fuel mas, presplit (wordcountSplitter 1) fuel ⟨0, [97, 32, 98], 3⟩ = some mas ∧ Tiles 0 mas 3 := by
  obtain ⟨hdef, hwords⟩ := splitting_terminates_iff 1 (by decide) 3
  constructor
  · obtain ⟨ds, hinit, hiff, htiles⟩ := hdef 16 4 (by decide) (by decide) (by decide)
    obtain rfl := some.inj hinit
    obtain ⟨fuel, mas, hrun⟩ := hiff.mpr (by decide)
    exact ⟨fuel, mas, hrun, htiles fuel mas hrun⟩
  · obtain ⟨hiff, htiles⟩ := hwords [97, 32, 98] (by decide)
    obtain ⟨fuel, mas, hrun⟩ := hiff.mpr (.inl (by decide))
    exact ⟨fuel, mas, hrun, htiles fuel mas hrun⟩

/-- On one core, with the default number of splits: eight bytes of data, and the text "a b". -/
theorem splitting_endless : (∀ fuel, presplit (defsplitter 1) fuel ⟨0, 8, 0, 1⟩ = none) ∧
      ∀ fuel, presplit (wordcountSplitter 1) fuel ⟨0, [97, 32, 98], 0⟩ = none := by
  constructor
  · intro fuel
    rw [presplit, presplit_defsplitter_endless (by decide) (by decide) (by decide) (by decide) fuel]
    rfl
  · intro fuel
    have hmem : (32 : Byte) ∈ [(97 : Byte), 32, 98] := by simp
    rw [presplit, presplit_wordcount_endless (by decide) hmem (by decide) fuel]
    rfl

end Mosbench.Metis
