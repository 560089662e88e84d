import Mathlib.Data.Nat.Notation
import Mathlib.Tactic.SplitIfs
import Mosbench.Lib.Transition

/-!
The output of a remote process (Process in server.py). A thread reads it in pieces and puts
them into a shared list. A call takes all that is there into a string of its own, waits for more
until it has a line, and puts back what it does not return.
-/
namespace Mosbench.Mparts.Output

open List Transition

inductive Call
  | read
  | readline

def Call.pred : Call → List Char → Bool
  | .read, _ => true
  | .readline, s => '\n' ∈ s

/-- What is returned and what is put back. -/
def Call.fn : Call → List Char → List Char × List Char
  | .read, s => (s, [])
  | .readline, s => (s.takeWhile (· ≠ '\n') ++ ['\n'], (s.dropWhile (· ≠ '\n')).tail)

structure State where
  unread : List (List Char)
  stdout : List (List Char)
  closed : Bool
  call : Option (Call × List Char)
  results : List (Call × List Char)

inductive Act
  | reader
  | call (c : Call)
  | consumer

def step (st : State) : Act → Option State
  | .reader =>
    match st.unread with
    | [] => if st.closed then none else some { st with closed := true }
    | buf :: unread => some { st with unread, stdout := st.stdout ++ [buf] }
  | .call c => if st.call.isNone then some { st with call := some (c, []) } else none
  | .consumer =>
    match st.call with
    | none => none
    | some (c, s) =>
      if st.stdout = [] then
        if st.closed then some { st with call := none, results := st.results ++ [(c, s)] } else none
      else
        let s := s ++ st.stdout.flatten
        if c.pred s then
          some { st with
            stdout := if (c.fn s).2 = [] then [] else [(c.fn s).2]
            call := none
            results := st.results ++ [(c, (c.fn s).1)] }
        else some { st with stdout := [], call := some (c, s) }

/-- The output comes in some pieces that are not empty. -/
def system (output : List Char) : System State Act where
  initial st := ∃ unread, (∀ buf ∈ unread, buf ≠ []) ∧ unread.flatten = output ∧ st = ⟨unread, [], false, none, []⟩
  step := step

def lines : List Char → List (List Char)
  | [] => []
  | c :: cs =>
    if c = '\n' then [c] :: lines cs
    else match lines cs with
      | [] => [[c]]
      | l :: ls => (c :: l) :: ls

theorem lines_append_newline (h : '\n' ∉ s) (rest : List Char) : lines (s ++ '\n' :: rest) = (s ++ ['\n']) :: lines rest := by
  induction s with
  | nil => rfl
  | cons c s ih =>
    obtain ⟨hc, h⟩ := not_or.mp (mt mem_cons.mpr h)
    rw [cons_append, lines, if_neg (Ne.symm hc), ih h]
    rfl

theorem lines_eq_singleton (h : '\n' ∉ s) (hne : s ≠ []) : lines s = [s] := by
  induction s with
  | nil => exact absurd rfl hne
  | cons c s ih =>
    obtain ⟨hc, h⟩ := not_or.mp (mt mem_cons.mpr h)
    rw [lines, if_neg (Ne.symm hc)]
    cases s with
    | nil => rfl
    | cons d s => rw [ih h (cons_ne_nil _ _)]

theorem fn_readline (h : '\n' ∉ a) (b : List Char) : Call.fn .readline (a ++ '\n' :: b) = (a ++ ['\n'], b) := by
  have hall : ∀ c ∈ a, decide (c ≠ '\n') = true := fun c hc => decide_eq_true fun heq => h (heq ▸ hc)
  rw [Call.fn, takeWhile_append_of_pos hall, dropWhile_append_of_pos hall]
  simp

theorem fn_spec {c : Call} (hpred : c.pred s = true) (hs : s ≠ []) :
    (c.fn s).1 ++ (c.fn s).2 = s ∧ (c.fn s).1 ≠ [] ∧
      (c = .readline → ∀ u, lines (s ++ u) = (c.fn s).1 :: lines ((c.fn s).2 ++ u)) := by
  cases c with
  | read => exact ⟨append_nil s, hs, fun h => by cases h⟩
  | readline =>
    obtain ⟨a, b, rfl, ha⟩ := eq_append_cons_of_mem (of_decide_eq_true hpred)
    rw [fn_readline ha]
    refine ⟨append_cons a _ b ▸ rfl, by simp, fun _ u => ?_⟩
    rw [append_assoc, cons_append, lines_append_newline ha]

/-- What has not been returned. -/
def State.rest (st : State) : List Char := st.call.elim [] Prod.snd ++ (st.stdout.flatten ++ st.unread.flatten)

theorem flatten_putBack (s : List Char) : (if s = [] then [] else [s]).flatten = s := by
  split <;> simp_all

structure Good (st : State) : Prop where
  unread_ne : ∀ buf ∈ st.unread, buf ≠ []
  stdout_ne : ∀ buf ∈ st.stdout, buf ≠ []
  closed : st.closed = true → st.unread = []
  waits : ∀ c s, st.call = some (c, s) → s ≠ [] → c.pred s = false

/-- What is returned is taken from the front; nothing only if nothing is left. -/
structure Returns (c : Call) (read : List Char) (st t : State) : Prop where
  results_eq : t.results = st.results ++ [(c, read)]
  rest_eq : st.rest = read ++ t.rest
  nil_rest : read = [] → st.rest = []
  line : c = .readline → read ≠ [] → lines st.rest = read :: lines t.rest

theorem consumer_spec (h : Good st) (hstep : step st .consumer = some t) (hcall : st.call = some (c, s)) :
    Good t ∧ (t.results = st.results ∧ t.rest = st.rest ∨ ∃ c read, Returns c read st t) := by
  rcases st with ⟨unread, stdout, closed, _, results⟩
  obtain rfl := hcall
  cases stdout with
  | nil =>
    obtain ⟨hc, ht⟩ := Option.ite_none_right_eq_some.mp hstep
    obtain rfl := Option.some.inj ht
    obtain rfl : unread = [] := h.closed hc
    refine ⟨⟨h.unread_ne, h.stdout_ne, h.closed, by simp⟩, .inr ⟨c, s, ⟨rfl, by simp [State.rest], ?_, ?_⟩⟩⟩
    · rintro rfl
      rfl
    · rintro rfl hne
      have hs : '\n' ∉ s := of_decide_eq_false (h.waits _ s rfl hne)
      simpa [State.rest, lines] using lines_eq_singleton hs hne
  | cons buf stdout =>
    have hbuf : buf ≠ [] := h.stdout_ne buf mem_cons_self
    rw [step] at hstep
    simp only [reduceCtorEq, if_false] at hstep
    generalize hs' : s ++ (buf :: stdout).flatten = s' at hstep
    have hne : s' ≠ [] := by
      rw [← hs']
      simp [hbuf]
    have hrest : State.rest ⟨unread, buf :: stdout, closed, some (c, s), results⟩ = s' ++ unread.flatten := by
      rw [← hs', append_assoc]
      rfl
    split at hstep
    · next hpred =>
      obtain rfl := Option.some.inj hstep
      obtain ⟨happ, hread, hline⟩ := fn_spec hpred hne
      refine ⟨⟨h.unread_ne, ?_, h.closed, by simp⟩, .inr ⟨c, (c.fn s').1, ⟨rfl, ?_, fun hnil => absurd hnil hread, ?_⟩⟩⟩
      · dsimp only
        split <;> simp_all
      · rw [hrest, State.rest, flatten_putBack, Option.elim_none, nil_append, ← append_assoc, happ]
      · intro hc _
        rw [hrest, State.rest, flatten_putBack, Option.elim_none, nil_append, hline hc]
    · next hpred =>
      obtain rfl := Option.some.inj hstep
      refine ⟨⟨h.unread_ne, by simp, h.closed, ?_⟩, .inl ⟨rfl, hrest.symm⟩⟩
      rintro _ _ ⟨⟩ -
      exact Bool.eq_false_iff.mpr hpred

theorem step_spec (h : Good st) (hstep : step st a = some t) :
    Good t ∧ (t.results = st.results ∧ t.rest = st.rest ∨ ∃ c read, Returns c read st t) := by
  cases a with
  | reader =>
    rcases st with ⟨_ | ⟨buf, unread⟩, stdout, closed, call, results⟩
    · obtain ⟨-, ht⟩ := Option.ite_none_left_eq_some.mp hstep
      obtain rfl := Option.some.inj ht
      exact ⟨⟨h.unread_ne, h.stdout_ne, fun _ => rfl, h.waits⟩, .inl ⟨rfl, rfl⟩⟩
    · obtain rfl := Option.some.inj hstep
      obtain ⟨hbuf, hunread⟩ := forall_mem_cons.mp h.unread_ne
      refine ⟨⟨hunread, ?_, fun hc => absurd (h.closed hc) (cons_ne_nil _ _), h.waits⟩, .inl ⟨rfl, ?_⟩⟩
      · exact forall_mem_append.mpr ⟨h.stdout_ne, forall_mem_singleton.mpr hbuf⟩
      · simp [State.rest]
  | call c =>
    obtain ⟨hnone, ht⟩ := Option.ite_none_right_eq_some.mp hstep
    obtain rfl := Option.some.inj ht
    refine ⟨⟨h.unread_ne, h.stdout_ne, h.closed, ?_⟩, .inl ⟨rfl, ?_⟩⟩
    · rintro _ _ ⟨⟩ hne
      exact absurd rfl hne
    · rw [State.rest, State.rest, Option.isNone_iff_eq_none.mp hnone]
      rfl
  | consumer =>
    cases hcall : st.call with
    | none => simp [step, hcall] at hstep
    | some call => exact consumer_spec h hstep hcall

structure Inv (output : List Char) (st : State) : Prop where
  good : Good st
  conserved : (st.results.map Prod.snd).flatten ++ st.rest = output
  ended : [] ∈ st.results.map Prod.snd → st.rest = []
  lines_eq : (∀ r ∈ st.results, r.1 = .readline) → lines output = st.results.map Prod.snd ++ lines st.rest ∨
    st.rest = [] ∧ ∃ n, st.results.map Prod.snd = lines output ++ replicate n []

theorem Inv.returns {read : List Char} (h : Inv output st) (hgood : Good t) (hread : Returns c read st t) : Inv output t := by
  obtain ⟨hresults, hrest, hnil, hline⟩ := hread
  have hall : t.results.map Prod.snd = st.results.map Prod.snd ++ [read] := by rw [hresults, map_append]; rfl
  refine ⟨hgood, ?_, ?_, ?_⟩
  · rw [hall, flatten_append, flatten_singleton, append_assoc, ← hrest]
    exact h.conserved
  · intro hempty
    have hnone : st.rest = [] := by
      rw [hall] at hempty
      rcases mem_append.mp hempty with hempty | hempty
      · exact h.ended hempty
      · exact hnil (mem_singleton.mp hempty).symm
    exact (append_eq_nil_iff.mp (hrest ▸ hnone)).2
  · intro honly
    rw [hresults, forall_mem_append, forall_mem_singleton] at honly
    rw [hall]
    rcases h.lines_eq honly.1 with heq | ⟨hnone, n, heq⟩
    · by_cases hempty : read = []
      · have hnone := hnil hempty
        refine .inr ⟨(append_eq_nil_iff.mp (hrest ▸ hnone)).2, 1, ?_⟩
        rw [heq, hnone, hempty, lines, append_nil]
        rfl
      · rw [heq, hline honly.2 hempty, append_assoc]
        exact .inl rfl
    · obtain ⟨hempty, hnone'⟩ := append_eq_nil_iff.mp (hrest ▸ hnone)
      refine .inr ⟨hnone', n + 1, ?_⟩
      rw [heq, hempty, append_assoc, replicate_succ']

theorem inv_reachable (h : Reachable (system output) ok st) : Inv output st := by
  refine h.invariant ?_ ?_
  · rintro _ ⟨unread, hne, rfl, rfl⟩
    exact ⟨⟨hne, by simp, by simp, by simp⟩, rfl, by simp, fun _ => .inl rfl⟩
  · intro st a t _ hinv _ hstep
    obtain ⟨hgood, ⟨hresults, hrest⟩ | ⟨c, read, hread⟩⟩ := step_spec hinv.good hstep
    · obtain ⟨-, hconserved, hended, hlines⟩ := hinv
      rw [← hresults, ← hrest] at hconserved hended hlines
      exact ⟨hgood, hconserved, hended, hlines⟩
    · exact hinv.returns hgood hread

/-- A bound on the steps that are left when no other call is begun. -/
def State.work (st : State) : ℕ :=
  2 * (st.unread.length + if st.closed then 0 else 1) + (if st.stdout = [] then 0 else 1) +
    if st.call.isSome then 1 else 0

theorem step_work (hstep : step st a = some t) (ha : ∀ c, a ≠ .call c) : t.work < st.work := by
  rcases st with ⟨unread, stdout, closed, call, results⟩
  cases a with
  | call c => exact absurd rfl (ha c)
  | reader =>
    cases unread with
    | nil =>
      obtain ⟨hopen, ht⟩ := Option.ite_none_left_eq_some.mp hstep
      obtain rfl := Option.some.inj ht
      simp_all [State.work]
    | cons buf unread =>
      obtain rfl := Option.some.inj hstep
      simp only [State.work, length_cons, append_eq_nil_iff, cons_ne_nil, and_false, if_false]
      split_ifs <;> omega
  | consumer =>
    cases call with
    | none => cases hstep
    | some call =>
      obtain ⟨c, s⟩ := call
      simp only [step] at hstep
      split_ifs at hstep <;> obtain rfl := Option.some.inj hstep <;> simp_all [State.work] <;>
        split_ifs <;> omega

/-- A call waits only for the reader, and only as long as there is output to come. -/
theorem enabled_of_call (hreader : step st .reader = none) (hconsumer : step st .consumer = none) :
    st.call = none := by
  rcases st with ⟨unread, stdout, closed, call, results⟩
  cases unread with
  | cons buf unread => cases hreader
  | nil =>
    cases call with
    | none => rfl
    | some call =>
      obtain ⟨c, s⟩ := call
      simp only [step] at hreader hconsumer
      split_ifs at hreader hconsumer

/-- However the output is cut and the threads interleave: the results and what is still to be
returned are the output, in order; an empty result comes only when all of it was returned; reading
by lines gives its lines one by one, and then nothing; and every call that was begun returns after
finitely many steps. -/
theorem output_read_in_order (output : List Char) (st : State)
    (h : Reachable (system output) (fun _ _ => True) st) :
    (st.results.map Prod.snd).flatten ++ st.rest = output ∧
    ([] ∈ st.results.map Prod.snd → (st.results.map Prod.snd).flatten = output) ∧
    ((∀ r ∈ st.results, r.1 = .readline) → st.results.map Prod.snd =
      (lines output ++ replicate st.results.length []).take st.results.length) ∧
    (step st .reader = none → step st .consumer = none → st.call = none) ∧
    ∀ tr t, Run (system output) (fun _ a => ∀ c, a ≠ .call c) st tr t → tr.length ≤ st.work := by
  have hinv := inv_reachable h
  refine ⟨hinv.conserved, ?_, ?_, enabled_of_call, fun tr t hrun => ?_⟩
  · intro hempty
    have hall := hinv.conserved
    rwa [hinv.ended hempty, append_nil] at hall
  · intro honly
    rcases hinv.lines_eq honly with heq | ⟨-, n, hall⟩
    · rw [heq, append_assoc, take_left' (length_map _)]
    · have hlen : (lines output).length + n = st.results.length := by
        rw [← length_map Prod.snd, hall, length_append, length_replicate]
      rw [hall, take_append, take_of_length_le (by omega), take_replicate]
      congr 2
      omega
  · have hle := hrun.length_le (I := fun _ => True) State.work
      (fun v a w _ ha hstep => ⟨trivial, step_work hstep ha⟩) trivial
    omega

/-- Three calls read "a" and "b" by lines, and the end. -/
theorem output_read_in_order_line : ∃ st, Reachable (system ['a', '\n', 'b']) (fun _ _ => True) st ∧
    (st.results.map Prod.snd).flatten = ['a', '\n', 'b'] ∧
    st.results.map Prod.snd = (lines ['a', '\n', 'b'] ++ replicate 3 []).take 3 ∧
    ∀ tr t, Run (system ['a', '\n', 'b']) (fun _ a => ∀ c, a ≠ .call c) st tr t → tr = [] := by
  have hstart : (system ['a', '\n', 'b']).initial ⟨[['a'], ['\n', 'b']], [], false, none, []⟩ :=
    ⟨_, by simp, rfl, rfl⟩
  have hrun : exec (system ['a', '\n', 'b']) (fun _ _ => True)
      ⟨[['a'], ['\n', 'b']], [], false, none, []⟩
      [.call .readline, .reader, .reader, .consumer, .call .readline, .consumer, .reader, .consumer,
        .call .readline, .consumer] =
      some ⟨[], [], true, none, [(.readline, ['a', '\n']), (.readline, ['b']), (.readline, [])]⟩ := rfl
  have hreach := (Reachable.of_initial hstart).exec hrun
  obtain ⟨-, hall, hlines, -, hbound⟩ := output_read_in_order _ _ hreach
  refine ⟨_, hreach, hall (by simp), hlines (by simp), fun tr t ht => ?_⟩
  exact length_eq_zero_iff.mp (Nat.le_zero.mp (hbound tr t ht))

end Mosbench.Mparts.Output
