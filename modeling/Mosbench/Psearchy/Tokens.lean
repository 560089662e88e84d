import Mosbench.Lib.Fallible
import Mosbench.Psearchy.Pass0

/-!
The words of a document, and how the inner loop of pass0 reads one of them into memory.
-/
namespace Mosbench.Psearchy

open List Bytes Fallible

/-- The maximal runs of letters and digits, in lower case. -/
def words (file : List Byte) : List (List Byte) :=
  ((file.splitOnP fun c => !wordChar c).filter (· ≠ [])).map fun run => run.map lower

/-- The file does not end within a word. -/
def Closed (file : List Byte) : Prop := ∀ c ∈ file.getLast?, wordChar c = false

theorem words_nil : words [] = [] := by
  rw [words, splitOnP_nil]
  rfl

theorem words_cons_sep (hc : wordChar c = false) (file : List Byte) : words (c :: file) = words file := by
  rw [words, splitOnP_cons_eq_if_modifyHead, if_pos (by rw [hc]; rfl), filter_cons_of_neg (by simp), ← words]

theorem words_seps (hseps : ∀ b ∈ seps, wordChar b = false) (file : List Byte) : words (seps ++ file) = words file := by
  induction seps with
  | nil => rfl
  | cons b seps ih =>
    obtain ⟨hb, hseps⟩ := forall_mem_cons.mp hseps
    rw [cons_append, words_cons_sep hb, ih hseps]

theorem words_run (hrun : ∀ b ∈ run, wordChar b = true) (hne : run ≠ []) (hc : wordChar c = false) (rest : List Byte) :
    words (run ++ c :: rest) = run.map lower :: words rest := by
  have hnot : ∀ b ∈ run, (!wordChar b) = false := fun b hb => by rw [hrun b hb]; rfl
  rw [words, splitOnP_append_cons_of_forall_mem hnot _ (by rw [hc]; rfl), filter_cons_of_pos (by simpa using hne), map_cons, ← words]

theorem Closed.cases (h : Closed file) : (∀ b ∈ file, wordChar b = false) ∨
      ∃ seps run c rest, file = seps ++ (run ++ c :: rest) ∧ (∀ b ∈ seps, wordChar b = false) ∧
        (∀ b ∈ run, wordChar b = true) ∧ run ≠ [] ∧ wordChar c = false ∧ Closed rest := by
  have hsplit := takeWhile_append_dropWhile (p := fun b => !wordChar b) (l := file)
  have hseps : ∀ b ∈ file.takeWhile fun b => !wordChar b, wordChar b = false := fun b hb => by
    simpa using mem_takeWhile_imp hb
  cases htail : file.dropWhile fun b => !wordChar b with
  | nil =>
    rw [htail, append_nil] at hsplit
    exact .inl (hsplit ▸ hseps)
  | cons d tail =>
    have hd : wordChar d = true := by
      have := head_dropWhile_not (fun b => !wordChar b) (l := file) (by rw [htail]; nofun)
      simpa [htail] using this
    have hsplit' := takeWhile_append_dropWhile (p := wordChar) (l := d :: tail)
    have hrun : ∀ b ∈ (d :: tail).takeWhile wordChar, wordChar b = true := fun b hb => mem_takeWhile_imp hb
    rw [htail] at hsplit
    cases hafter : (d :: tail).dropWhile wordChar with
    | nil =>
      -- then the last byte belongs to the run
      rw [hafter, append_nil] at hsplit'
      have hlast : file.getLast? = (d :: tail).getLast? := by
        rw [← hsplit, getLast?_append, getLast?_cons]
        rfl
      have hmem : (d :: tail).getLast (by nofun) ∈ (d :: tail).takeWhile wordChar := by
        rw [hsplit']
        exact getLast_mem _
      have hfalse := h _ (by rw [hlast, getLast?_eq_getLast_of_ne_nil (by nofun)]; rfl)
      rw [hrun _ hmem] at hfalse
      exact nomatch hfalse
    | cons c rest =>
      have hc : wordChar c = false := by
        have := head_dropWhile_not wordChar (l := d :: tail) (by rw [hafter]; nofun)
        simpa [hafter] using this
      rw [hafter] at hsplit'
      refine .inr ⟨_, _, c, rest, by rw [hsplit', hsplit], hseps, hrun, ?_, hc, ?_⟩
      · rw [takeWhile_cons_of_pos hd]
        nofun
      · intro b hb
        refine h b ?_
        rw [← hsplit, ← hsplit', getLast?_append, getLast?_append, getLast?_cons, hb]
        rfl

variable {mem : List Byte} {p len skip : ℕ}

theorem readWord_seps (hseps : ∀ b ∈ seps, wordChar b = false) (hp : p ≤ mem.length) (file : List Byte) :
    readWord mem p 0 skip (seps ++ file) =
      if p + seps.length ≤ mem.length then
        readWord (overwrite mem p (replicate seps.length 0)) (p + seps.length) 0 (skip + seps.length) file
      else .error .range := by
  induction seps generalizing mem p skip with
  | nil => rw [length_nil, Nat.add_zero, if_pos hp, replicate_zero, overwrite_nil]; rfl
  | cons b seps ih =>
    obtain ⟨hb, hseps⟩ := forall_mem_cons.mp hseps
    rw [cons_append, readWord, hb, if_neg Bool.false_ne_true, Nat.add_zero, store, length_cons]
    by_cases hlt : p < mem.length
    · have hset : (mem.set p 0).length = mem.length := length_set
      have hover : overwrite (mem.set p 0) (p + 1) (replicate seps.length 0) =
          overwrite mem p (replicate (seps.length + 1) 0) := by
        rw [set_eq_overwrite hlt, replicate_succ]
        exact overwrite_append hlt _
      rw [if_pos hlt, ok_bind, if_pos rfl, ih hseps (by omega), hset, hover]
      simp only [Nat.add_assoc, Nat.add_comm 1]
    · rw [if_neg hlt, if_neg (by omega)]
      rfl

theorem readWord_run (hrun : ∀ b ∈ run, wordChar b = true) (hc : wordChar c = false) (hpos : 0 < len + run.length)
    (hp : p + len ≤ mem.length) (rest : List Byte) :
    readWord mem p len skip (run ++ c :: rest) =
      if p + len + run.length < mem.length then
        .ok ⟨overwrite mem (p + len) (run.map lower ++ [0]), p, len + run.length + 1, skip, rest⟩
      else .error .range := by
  induction run generalizing mem len with
  | nil =>
    have hlen : len ≠ 0 := by simpa using hpos.ne'
    rw [nil_append, readWord, hc, if_neg Bool.false_ne_true, store, length_nil]
    simp only [Nat.add_zero]
    by_cases hlt : p + len < mem.length
    · rw [if_pos hlt, if_pos hlt, ok_bind, if_neg hlen, set_eq_overwrite hlt]
      rfl
    · rw [if_neg hlt, if_neg hlt]
      rfl
  | cons b run ih =>
    obtain ⟨hb, hrun⟩ := forall_mem_cons.mp hrun
    rw [cons_append, readWord, hb, if_pos rfl, store, length_cons]
    by_cases hlt : p + len < mem.length
    · have hset : (mem.set (p + len) (lower b)).length = mem.length := length_set
      have hover : overwrite (mem.set (p + len) (lower b)) (p + (len + 1)) (run.map lower ++ [0]) =
          overwrite mem (p + len) ((b :: run).map lower ++ [0]) := by
        rw [set_eq_overwrite hlt]
        exact overwrite_append hlt _
      rw [if_pos hlt, ok_bind, ih hrun (by omega) (by omega), hset, hover]
      simp only [Nat.add_assoc, Nat.add_comm 1]
    · rw [if_neg hlt, if_neg (by omega)]
      rfl

theorem readWord_word (hseps : ∀ b ∈ seps, wordChar b = false) (hrun : ∀ b ∈ run, wordChar b = true) (hne : run ≠ [])
    (hc : wordChar c = false) (hp : p ≤ mem.length) (rest : List Byte) :
    readWord mem p 0 0 (seps ++ (run ++ c :: rest)) =
      if p + seps.length + run.length < mem.length then
        .ok ⟨overwrite mem p (replicate seps.length 0 ++ (run.map lower ++ [0])), p + seps.length, run.length + 1,
          seps.length, rest⟩
      else .error .range := by
  have hzeros : (replicate seps.length (0 : Byte)).length = seps.length := length_replicate
  rw [readWord_seps hseps hp]
  by_cases hle : p + seps.length ≤ mem.length
  · have hover : (overwrite mem p (replicate seps.length 0)).length = mem.length :=
      length_overwrite (by rwa [hzeros])
    have happend : overwrite (overwrite mem p (replicate seps.length 0)) (p + seps.length) (run.map lower ++ [0]) =
        overwrite mem p (replicate seps.length 0 ++ (run.map lower ++ [0])) := by
      have happend' := overwrite_append (hzeros.symm ▸ hle) (run.map lower ++ [0])
      rwa [hzeros] at happend'
    rw [if_pos hle, readWord_run hrun hc (by have := length_pos_iff.mpr hne; omega) (by rw [hover]; omega), hover,
      Nat.add_zero, Nat.zero_add, Nat.zero_add, happend]
  · rw [if_neg hle, if_neg (by omega)]

theorem readWord_end (hseps : ∀ b ∈ seps, wordChar b = false) (hp : p ≤ mem.length) :
    readWord mem p 0 0 seps =
      if p + seps.length ≤ mem.length then
        .ok ⟨overwrite mem p (replicate seps.length 0), p + seps.length, 0, seps.length, []⟩
      else .error .range := by
  have h : readWord mem p 0 0 (seps ++ []) = _ := readWord_seps hseps hp []
  rwa [append_nil, readWord, Nat.zero_add] at h

/-- Separators together with the word behind them are never more than `n` bytes. -/
def Spaced (n : ℕ) (file : List Byte) : Prop :=
  ∀ front seps run rest, file = front ++ (seps ++ (run ++ rest)) → (∀ b ∈ seps, wordChar b = false) →
    (∀ b ∈ run, wordChar b = true) → seps.length + run.length ≤ n

theorem Spaced.drop (h : Spaced n (front ++ file)) : Spaced n file := by
  intro front' seps run rest hfile
  refine h (front ++ front') seps run rest ?_
  rw [hfile, append_assoc]

theorem spaced_of_length_le (h : file.length ≤ n) : Spaced n file := by
  rintro front seps run rest rfl - -
  simp only [length_append] at h
  omega

/-- The inner loop stays inside the memory when what it reads has room, and leaves less to read if
it finds a word. -/
theorem readWord_fits (hroom : p + len + n < mem.length)
    (hfits : ∀ seps run rest, file = seps ++ (run ++ rest) → (len = 0 ∨ seps = []) → (∀ b ∈ seps, wordChar b = false) →
      (∀ b ∈ run, wordChar b = true) → seps.length + run.length ≤ n) :
    ∃ tok, readWord mem p len skip file = .ok tok ∧ tok.mem.length = mem.length ∧
      (∃ front, file = front ++ tok.rest) ∧ (tok.len ≠ 0 → len = 0 → tok.rest.length < file.length) := by
  induction file generalizing mem p len skip n with
  | nil => exact ⟨_, rfl, rfl, ⟨[], rfl⟩, fun hne hlen => absurd hlen hne⟩
  | cons c file ih =>
    have hstore : ∀ b, store mem (p + len) b = .ok (mem.set (p + len) b) := fun b => if_pos (by omega)
    have hset : ∀ b, (mem.set (p + len) b).length = mem.length := fun b => length_set
    cases hc : wordChar c with
    | true =>
      have hone := hfits [] [c] file rfl (.inr rfl) (by simp) (by simpa using hc)
      simp only [length_nil, length_singleton, Nat.zero_add] at hone
      obtain ⟨tok, htok, hlen, ⟨front, hfront⟩, -⟩ := @ih (mem.set (p + len) (lower c)) p (len + 1) skip
        (n - 1) (by rw [hset]; omega) fun seps run rest hfile hseps _ hrun => by
          obtain rfl : seps = [] := hseps.resolve_left (Nat.succ_ne_zero len)
          have hle := hfits [] (c :: run) rest (by rw [hfile]; rfl) (.inr rfl) (by simp) (by simpa [hc] using hrun)
          simp only [length_cons, length_nil] at hle ⊢
          omega
      refine ⟨tok, ?_, hlen.trans (hset _), ⟨c :: front, by rw [hfront]; rfl⟩, fun _ _ => ?_⟩
      · rw [readWord, hc, if_pos rfl, hstore, ok_bind, htok]
      · rw [length_cons, hfront, length_append]
        omega
    | false =>
      rw [readWord, hc, if_neg Bool.false_ne_true, hstore, ok_bind]
      by_cases hlen : len = 0
      · subst hlen
        have hone := hfits [c] [] file rfl (.inl rfl) (by simpa using hc) (by simp)
        simp only [length_nil, length_singleton, Nat.add_zero] at hone
        obtain ⟨tok, htok, hmem, ⟨front, hfront⟩, -⟩ := @ih (mem.set (p + 0) 0) (p + 1) 0 (skip + 1)
          (n - 1) (by rw [hset]; omega) fun seps run rest hfile _ hseps hrun => by
            have hle := hfits (c :: seps) run rest (by rw [hfile]; rfl) (.inl rfl) (by simpa [hc] using hseps) hrun
            simp only [length_cons] at hle
            omega
        rw [if_pos rfl]
        refine ⟨tok, htok, hmem.trans (hset _), ⟨c :: front, by rw [hfront]; rfl⟩, fun _ _ => ?_⟩
        rw [length_cons, hfront, length_append]
        omega
      · rw [if_neg hlen]
        exact ⟨_, rfl, hset _, ⟨[c], rfl⟩, fun _ h => absurd h hlen⟩

end Mosbench.Psearchy
