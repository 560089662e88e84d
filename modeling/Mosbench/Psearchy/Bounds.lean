import Mosbench.Psearchy.TempFiles

/-!
Where pass0 writes. It looks for room once, before it reads a word; what the inner loop then
writes depends on the file. What is read may still lie outside: a file that ends within a word
leaves it without a zero.
-/
namespace Mosbench.Psearchy

open List Bytes Fallible

def BlocksFit (ps : Pass0) : Prop :=
  ∀ bu ∈ ps.table, bu.word ≠ none → ∀ bl ∈ bu.blocks, bl.length ≤ blockSize

/-- Every write of the loop of pass0 lies inside its buffer. A flush only reads; the inner loop only
writes, to `wordbytes`; then a posting is written to `infobuf` and to a slot of a block, which may
be the next one of the arena. -/
def WritesFit (sz : Sizes) (did : Int64) : ℕ → List Byte → UInt32 → Core → Prop
  | 0, _, _, _ => False
  | fuel + 1, input, wc, c =>
    match c.makeRoom sz (fun _ _ => false) did wc with
    | .error _ => True
    | .ok c =>
      match readWord c.ps.wordbytes c.ps.wordi 0 0 input with
      | .error _ => False
      | .ok tok => tok.len = 0 ∨ c.ps.infoi < c.ps.infobuf.length ∧ c.ps.blocki < sz.maxblocks ∧
          ∀ ps', enterWord sz c.ps did (wc + 1) tok = .ok ps' →
            BlocksFit ps' ∧ WritesFit sz did fuel tok.rest (wc + 1) { c with ps := ps' }

def FilesFit (sz : Sizes) : List (Int64 × List Byte) → Core → Prop
  | [], _ => True
  | doc :: docs, c => WritesFit sz doc.1 (doc.2.length + 1) doc.2 0 c ∧
      ∀ c', pass0 sz (fun _ _ => false) c doc = .ok c' → FilesFit sz docs c'

section Turn

theorem BlocksFit.set (hfit : BlocksFit ps) (hbu : ∀ bl ∈ bu.blocks, bl.length ≤ blockSize)
    (htable : ps'.table = ps.table.set h bu) : BlocksFit ps' := by
  intro bu' hbu' hused
  rw [htable] at hbu'
  rcases mem_or_eq_of_mem_set hbu' with hbu' | rfl
  · exact hfit bu' hbu' hused
  · exact hbu

theorem BlocksFit.addPosting (hfit : BlocksFit ps) (hadd : addPosting sz ps tok h i = .ok ps') :
    BlocksFit ps' ∧ ps'.wordbytes = ps.wordbytes ∧ ps'.infobuf = ps.infobuf := by
  obtain ⟨bu, hbu, ⟨-, rfl⟩ | ⟨hused, blocks, blocki, -, hblocks, -, rfl⟩⟩ := addPosting_cases hadd
  · exact ⟨hfit.set (by simp [blockSize]) rfl, rfl, rfl⟩
  · exact ⟨hfit.set (hblocks (hfit bu (mem_of_getElem? hbu) hused)) rfl, rfl, rfl⟩

structure Sized (sz : Sizes) (ps : Pass0) : Prop where
  word : ps.wordbytes.length = sz.maxword
  info : ps.infobuf.length = sz.maxinfo
  blocks : BlocksFit ps

theorem Sized.enterWord (hps : Sized sz ps) (htok : tok.mem.length = ps.wordbytes.length)
    (hent : enterWord sz ps did wc tok = .ok ps') : Sized sz ps' := by
  obtain ⟨infop, word, r, -, -, -, hadd⟩ := enterWord_cases hent
  have hfit : BlocksFit { ps with
      wordbytes := tok.mem
      infobuf := ps.infobuf.set ps.infoi { infop with dn := did, wc := wc }
      infoi := ps.infoi + 1 } := hps.blocks
  obtain ⟨hblocks, hword, hinfo⟩ := hfit.addPosting hadd
  refine ⟨?_, ?_, hblocks⟩
  · rw [hword]
    exact htok.trans hps.word
  · rw [hinfo]
    exact length_set.trans hps.info

structure Roomed (sz : Sizes) (ps : Pass0) : Prop extends Sized sz ps where
  wordi : ps.wordi + sz.maxwordlen < sz.maxword
  infoi : ps.infoi < sz.maxinfo
  blocki : ps.blocki < sz.maxblocks

structure Sizes.Enough (sz : Sizes) : Prop where
  word : sz.maxwordlen + 1 ≤ sz.maxword
  info : 1 ≤ sz.maxinfo
  blocks : 2 ≤ sz.maxblocks

theorem Sized.makeRoom {c : Core} (hc : Sized sz c.ps) (hsz : sz.Enough)
    (hroom : c.makeRoom sz early did wc = .ok c') : Roomed sz c'.ps := by
  rw [Core.makeRoom] at hroom
  split_ifs at hroom with hfull
  · obtain ⟨r, hr, rfl⟩ := map_eq_ok.mp hroom
    have hps := flushwords_snd hr
    dsimp only
    rw [hps]
    refine ⟨⟨hc.word, hc.info, fun bu hbu hused => ?_⟩, ?_, hsz.info, Nat.zero_lt_of_lt hsz.blocks⟩
    · obtain ⟨bu', -, rfl⟩ := mem_map.mp hbu
      exact absurd rfl hused
    · have := hsz.word
      dsimp only [emptied]
      omega
  · obtain rfl := Except.ok.inj hroom
    simp only [Bool.or_eq_true, full, decide_eq_true_eq, not_or] at hfull
    refine ⟨hc, ?_, ?_, ?_⟩ <;> omega

end Turn

section Files

theorem Roomed.readWord (hps : Roomed sz ps) (hinput : Spaced sz.maxwordlen input) :
    ∃ tok, readWord ps.wordbytes ps.wordi 0 0 input = .ok tok ∧ tok.mem.length = ps.wordbytes.length ∧
      (∃ front, input = front ++ tok.rest) ∧ (tok.len ≠ 0 → tok.rest.length < input.length) := by
  have hroom : ps.wordi + 0 + sz.maxwordlen < ps.wordbytes.length := by
    rw [hps.word, Nat.add_zero]
    exact hps.wordi
  have hfits : ∃ tok, Psearchy.readWord ps.wordbytes ps.wordi 0 0 input = .ok tok ∧ _ :=
    readWord_fits hroom fun seps run rest hfile _ => hinput [] seps run rest hfile
  obtain ⟨tok, htok, hmem, hrest, hless⟩ := hfits
  exact ⟨tok, htok, hmem, hrest, fun hne => hless hne rfl⟩

theorem Sized.writesFit (hsz : sz.Enough) (hinput : Spaced sz.maxwordlen input)
    (hfuel : input.length < fuel) (hc : Sized sz c.ps) : WritesFit sz did fuel input wc c := by
  induction fuel generalizing input wc c with
  | zero => omega
  | succ fuel ih =>
    rw [WritesFit]
    cases hroom : c.makeRoom sz (fun _ _ => false) did wc with
    | error e => exact trivial
    | ok c₁ =>
      have hroomed := hc.makeRoom hsz hroom
      obtain ⟨tok, htok, hmem, ⟨front, hfront⟩, hless⟩ := hroomed.readWord hinput
      dsimp only
      rw [htok]
      by_cases hlen : tok.len = 0
      · exact .inl hlen
      refine .inr ⟨hroomed.info.symm ▸ hroomed.infoi, hroomed.blocki, fun ps' hent => ?_⟩
      have hsized := hroomed.toSized.enterWord hmem hent
      have hrest := hless hlen
      exact ⟨hsized.blocks, ih (Spaced.drop (hfront ▸ hinput)) (by omega) hsized⟩

theorem Sized.pass0Loop (hsz : sz.Enough) (hinput : Spaced sz.maxwordlen input)
    (hc : Sized sz c.ps) (hrun : pass0Loop sz (fun _ _ => false) did fuel input wc c = .ok c') :
    Sized sz c'.ps := by
  induction fuel generalizing input wc c with
  | zero => cases hrun
  | succ fuel ih =>
    rw [Psearchy.pass0Loop] at hrun
    obtain ⟨c₁, hroom, hrun⟩ := bind_eq_ok.mp hrun
    have hroomed := hc.makeRoom hsz hroom
    obtain ⟨tok, htok, hmem, ⟨front, hfront⟩, -⟩ := hroomed.readWord hinput
    rw [htok, ok_bind] at hrun
    split_ifs at hrun
    · obtain rfl := Except.ok.inj hrun
      exact ⟨hmem.trans hroomed.word, hroomed.info, hroomed.blocks⟩
    · obtain ⟨ps', hent, hrun⟩ := bind_eq_ok.mp hrun
      exact ih (Spaced.drop (hfront ▸ hinput)) (hroomed.toSized.enterWord hmem hent) hrun

theorem Sized.filesFit (hsz : sz.Enough)
    (hdocs : ∀ doc ∈ docs, Spaced sz.maxwordlen doc.2) (hc : Sized sz c.ps) : FilesFit sz docs c := by
  induction docs generalizing c with
  | nil => exact trivial
  | cons doc docs ih =>
    obtain ⟨hdoc, hdocs⟩ := forall_mem_cons.mp hdocs
    exact ⟨hc.writesFit hsz hdoc (Nat.lt_succ_self _), fun c' hrun => ih hdocs (hc.pass0Loop hsz hdoc hrun)⟩

theorem Fresh.sized (h : Fresh sz ps) : Sized sz ps := by
  refine ⟨h.wordbytes, h.infobuf, fun bu hbu hused => ?_⟩
  rw [h.table] at hbu
  rw [eq_of_mem_replicate hbu] at hused
  exact absurd rfl hused

end Files

/-- pass0 writes inside its buffers whatever the files are, closed or not, when separators with the
word behind them are never longer than `maxwordlen`. -/
theorem pass0_in_bounds (sz : Sizes) (hsz : sz.Enough) (ps : Pass0) (hps : Fresh sz ps)
    (docs : List (Int64 × List Byte)) (hdocs : ∀ doc ∈ docs, Spaced sz.maxwordlen doc.2) : FilesFit sz docs ⟨ps, []⟩ :=
  Sized.filesFit hsz hdocs hps.sized

def leastSizes : Sizes := ⟨2, 1, 3, 3, 2, by decide⟩

def leastStart : Pass0 := ⟨[0, 0, 0], [⟨⟨0, 0⟩, 0⟩], [⟨none, [], 0⟩, ⟨none, [], 0⟩, ⟨none, [], 0⟩], 0, 0, 0, 0⟩

theorem fresh_leastStart : Fresh leastSizes leastStart := ⟨rfl, rfl, rfl, rfl, rfl, rfl⟩

theorem enough_leastSizes : leastSizes.Enough := ⟨by decide, by decide, by decide⟩

/-- "a " and "b". -/
theorem pass0_in_bounds_least :
    (∀ doc ∈ [((1 : Int64), ([97, 32] : List Byte)), (2, [98])], Spaced 2 doc.2) ∧
      FilesFit leastSizes [(1, [97, 32]), (2, [98])] ⟨leastStart, []⟩ := by
  have hdocs : ∀ doc ∈ [((1 : Int64), ([97, 32] : List Byte)), (2, [98])], Spaced 2 doc.2 := by
    intro doc hdoc
    refine spaced_of_length_le ?_
    rcases mem_cons.mp hdoc with rfl | hdoc
    · decide
    · rw [mem_singleton.mp hdoc]
      decide
  exact ⟨hdocs, pass0_in_bounds leastSizes enough_leastSizes leastStart fresh_leastStart _ hdocs⟩

/-- A word of four letters, and three separators: both are written past the end of `wordbytes`. -/
theorem pass0_writes_outside :
    leastSizes.Enough ∧ Fresh leastSizes leastStart ∧ ¬ FilesFit leastSizes [(1, [97, 98, 99, 100, 32])] ⟨leastStart, []⟩ ∧
      ¬ FilesFit leastSizes [(1, [32, 32, 32, 97])] ⟨leastStart, []⟩ := by
  have hroom : Core.makeRoom leastSizes (fun _ _ => false) 1 0 ⟨leastStart, []⟩ = .ok ⟨leastStart, []⟩ := rfl
  refine ⟨enough_leastSizes, fresh_leastStart, fun h => ?_, fun h => ?_⟩
  · have hread : readWord leastStart.wordbytes leastStart.wordi 0 0 [97, 98, 99, 100, 32] = .error .range := rfl
    have hfit := h.1
    rw [length_cons, WritesFit, hroom] at hfit
    dsimp only at hfit
    rwa [hread] at hfit
  · have hread : readWord leastStart.wordbytes leastStart.wordi 0 0 [32, 32, 32, 97] = .error .range := rfl
    have hfit := h.1
    rw [length_cons, WritesFit, hroom] at hfit
    dsimp only at hfit
    rwa [hread] at hfit

end Mosbench.Psearchy
