import Mathlib.Data.List.AList
import Mosbench.Lib.Transition

/-!
The object table of the RPC server (rpc.py). Each request is handled by a thread of its own,
and a thread goes from one access of what the threads share to the next in one step: it looks
its object up, runs the method, reads the size of the table into the proxy's `_id`, stores
the object under `_id`, and pickles the reply. `O` are the server's objects; `P` are the
RPCProxy objects the methods return, and a method may return the same one again. Of a reply
without a proxy only that it is sent is kept.
-/
namespace Mosbench.Mparts.Server

open List Option Function Transition

inductive Handler (O P : Type)
  | idle
  /-- It has a request for the object `oid`, made through a proxy of `obj`. -/
  | lookup (oid : ℕ) (obj : O)
  | call
  | size (val : P)
  | store (val : P)
  | send (val : Option P)
  deriving DecidableEq

inductive Result (P : Type)
  | other
  | raised
  | proxy (val : P)

structure State (H O P : Type) where
  oids : AList fun _ : ℕ => O
  id : P → Option ℕ
  handler : H → Handler O P
  /-- The proxies sent: the id in the reply and the object that was returned. -/
  sent : List (ℕ × O)
  /-- The calls made: the object behind the proxy, and the object the server found. -/
  calls : List (O × Option O)

inductive Act (P : Type)
  | request (proxy : ℕ)
  | lookup
  | returns (res : Result P)
  | size
  | store
  | send

variable {H O P : Type} [DecidableEq H]

def State.goto (s : State H O P) (h : H) (next : Handler O P) : State H O P :=
  { s with handler := Function.update s.handler h next }

theorem handler_goto_of_ne (s : State H O P) (hne : h' ≠ h) (next : Handler O P) :
    (s.goto h next).handler h' = s.handler h' := update_of_ne hne _ _

theorem handler_goto (s : State H O P) (h : H) (next : Handler O P) :
    (s.goto h next).handler h = next := update_self ..

theorem handler_goto_eq {s : State H O P} {next : Handler O P} (hnext : next ≠ here)
    (hhere : (s.goto h next).handler h' = here) : s.handler h' = here := by
  by_cases heq : h' = h
  · rw [heq, handler_goto] at hhere
    exact absurd hhere hnext
  · rwa [handler_goto_of_ne s heq] at hhere

variable [DecidableEq P]

def State.setId (s : State H O P) (val : P) (id : ℕ) : State H O P :=
  { s with id := Function.update s.id val (some id) }

def State.setOid (s : State H O P) (id : ℕ) (o : O) : State H O P :=
  { s with oids := s.oids.insert id o }

def step (obj : P → O) (s : State H O P) : H × Act P → Option (State H O P)
  | (h, .request proxy) =>
    match s.handler h, s.sent[proxy]? with
    | .idle, some (oid, o) => some (s.goto h (.lookup oid o))
    | _, _ => none
  | (h, .lookup) =>
    match s.handler h with
    | .lookup oid o =>
      let found := s.oids.lookup oid
      let s := { s with calls := s.calls ++ [(o, found)] }
      some (s.goto h (if found.isSome then .call else .send none))
    | _ => none
  | (h, .returns res) =>
    match s.handler h, res with
    | .call, .other => some (s.goto h (.send none))
    | .call, .raised => some (s.goto h (.send none))
    | .call, .proxy val => some (s.goto h (.size val))
    | _, _ => none
  | (h, .size) =>
    match s.handler h with
    | .size val =>
      some ((s.setId val s.oids.keys.length).goto h (.store val))
    | _ => none
  | (h, .store) =>
    match s.handler h with
    | .store val =>
      (s.id val).map fun id => (s.setOid id (obj val)).goto h (.send (some val))
    | _ => none
  | (h, .send) =>
    match s.handler h with
    | .send none => some (s.goto h .idle)
    | .send (some val) =>
      (s.id val).map fun id =>
        let s := { s with sent := s.sent ++ [(id, obj val)] }
        s.goto h .idle
    | _ => none

/-- `serve` has sent the proxy of the system root. -/
def start (root : O) : State H O P := ⟨AList.singleton 0 root, fun _ => none, fun _ => .idle, [(0, root)], []⟩

def system (obj : P → O) (root : O) : System (State H O P) (H × Act P) := ⟨(· = start root), step obj⟩

def Handler.stores : Handler O P → Option P
  | .store val => some val
  | _ => none

def Handler.sends : Handler O P → Option P
  | .send val => val
  | _ => none

/-- A registration is not interleaved: between a handler's reading of the size and its
store, no other handler reads the size and no reply with its proxy is sent. -/
def Apart (s : State H O P) : H × Act P → Prop
  | (h, .size) => ∀ h', h' ≠ h → (s.handler h').stores = none
  | (h, .send) => ∀ h', (s.handler h').stores = none ∨ (s.handler h').stores ≠ (s.handler h).sends
  | _ => True

instance decidableApart {n : ℕ} (s : State (Fin n) O P) : ∀ a, Decidable (Apart s a)
  | (h, .size) => inferInstanceAs (Decidable (∀ h', h' ≠ h → (s.handler h').stores = none))
  | (h, .send) => inferInstanceAs (Decidable (∀ h',
      (s.handler h').stores = none ∨ (s.handler h').stores ≠ (s.handler h).sends))
  | (_, .request _) => inferInstanceAs (Decidable True)
  | (_, .lookup) => inferInstanceAs (Decidable True)
  | (_, .returns _) => inferInstanceAs (Decidable True)
  | (_, .store) => inferInstanceAs (Decidable True)

inductive Trans (obj : P → O) (s : State H O P) (h : H) : Act P → State H O P → Prop
  | request {proxy oid : ℕ} {o : O} : s.handler h = .idle → (oid, o) ∈ s.sent →
      Trans obj s h (.request proxy) (s.goto h (.lookup oid o))
  | lookup {oid : ℕ} {o : O} {next : Handler O P} : s.handler h = .lookup oid o → (next = .call ∨ next = .send none) →
      Trans obj s h .lookup ({ s with calls := s.calls ++ [(o, s.oids.lookup oid)] }.goto h next)
  | returns : s.handler h = .call → Trans obj s h (.returns res) (s.goto h (.send none))
  | proxy : s.handler h = .call → Trans obj s h (.returns (.proxy val)) (s.goto h (.size val))
  | size : s.handler h = .size val →
      Trans obj s h .size ((s.setId val s.oids.keys.length).goto h (.store val))
  | store {val : P} {id : ℕ} : s.handler h = .store val → s.id val = some id →
      Trans obj s h .store ((s.setOid id (obj val)).goto h (.send (some val)))
  | done : s.handler h = .send none → Trans obj s h .send (s.goto h .idle)
  | send {val : P} {id : ℕ} : s.handler h = .send (some val) → s.id val = some id →
      Trans obj s h .send ({ s with sent := s.sent ++ [(id, obj val)] }.goto h .idle)

theorem trans_of_step {s : State H O P}
    (hstep : step obj s (h, a) = some t) : Trans obj s h a t := by
  -- one goal for each way to succeed, in the order of the actions
  cases a <;> simp only [step] at hstep <;> split at hstep <;> try cases hstep
  · next oid o hidle hsent => exact .request hidle (mem_of_getElem? hsent)
  · next oid o hlookup =>
    refine .lookup hlookup ?_
    split
    · exact .inl rfl
    · exact .inr rfl
  · next hcall => exact .returns hcall
  · next hcall => exact .returns hcall
  · next val hcall => exact .proxy hcall
  · next val hsize => exact .size hsize
  · next val hstore =>
    obtain ⟨id, hid, rfl⟩ := map_eq_some_iff.mp hstep
    exact .store hstore hid
  · next hsend => exact .done hsend
  · next val hsend =>
    obtain ⟨id, hid, rfl⟩ := map_eq_some_iff.mp hstep
    exact .send hsend hid

structure Inv (obj : P → O) (s : State H O P) : Prop where
  keys : ∀ i, i ∈ s.oids ↔ i < s.oids.keys.length
  alone : ∀ {h h' val val'}, s.handler h = .store val → s.handler h' = .store val' → h = h'
  reserved : ∀ {h val}, s.handler h = .store val → s.id val = some s.oids.keys.length
  stored : ∀ {val i}, s.id val = some i →
    (∃ h, s.handler h = .store val) ∨ s.oids.lookup i = some (obj val)
  sent : ∀ p ∈ s.sent, s.oids.lookup p.1 = some p.2
  lookup : ∀ {h oid o}, s.handler h = .lookup oid o → s.oids.lookup oid = some o
  calls : ∀ c ∈ s.calls, c.2 = some c.1

section

variable {s : State H O P}

omit [DecidableEq P]

theorem Inv.goto (hinv : Inv obj s) {next : Handler O P} (hfrom : ∀ val, s.handler h ≠ .store val)
    (hstore : ∀ val, next ≠ .store val)
    (hlookup : ∀ oid o, next = .lookup oid o → s.oids.lookup oid = some o) :
    Inv obj (s.goto h next) where
  keys := hinv.keys
  alone := by
    intro h₁ h₂ val₁ val₂ hval₁ hval₂
    exact hinv.alone (handler_goto_eq (hstore val₁) hval₁) (handler_goto_eq (hstore val₂) hval₂)
  reserved := by
    intro h₁ val hval
    exact hinv.reserved (handler_goto_eq (hstore val) hval)
  stored := by
    intro val i hid
    rcases hinv.stored hid with ⟨h₁, hval⟩ | hval
    · have hne : h₁ ≠ h := by
        rintro rfl
        exact hfrom val hval
      exact .inl ⟨h₁, (handler_goto_of_ne s hne next).trans hval⟩
    · exact .inr hval
  sent := hinv.sent
  lookup := by
    intro h₁ oid o hval
    by_cases heq : h₁ = h
    · rw [heq, handler_goto] at hval
      exact hlookup oid o hval
    · rw [handler_goto_of_ne s heq] at hval
      exact hinv.lookup hval
  calls := hinv.calls

omit [DecidableEq H] in
theorem Inv.append_calls (hinv : Inv obj s) (hc : c.2 = some c.1) :
    Inv obj { s with calls := s.calls ++ [c] } := by
  refine ⟨hinv.keys, hinv.alone, hinv.reserved, hinv.stored, hinv.sent, hinv.lookup, ?_⟩
  intro c' hc'
  rcases mem_append.mp hc' with hc' | hc'
  · exact hinv.calls c' hc'
  · rw [mem_singleton.mp hc']
    exact hc

omit [DecidableEq H] in
theorem Inv.append_sent (hinv : Inv obj s) (hp : s.oids.lookup p.1 = some p.2) :
    Inv obj { s with sent := s.sent ++ [p] } := by
  refine ⟨hinv.keys, hinv.alone, hinv.reserved, hinv.stored, ?_, hinv.lookup, hinv.calls⟩
  intro p' hp'
  rcases mem_append.mp hp' with hp' | hp'
  · exact hinv.sent p' hp'
  · rw [mem_singleton.mp hp']
    exact hp

end

section

variable {s : State H O P}

theorem Inv.size (hinv : Inv obj s) (hat : s.handler h = .size val)
    (hapart : ∀ h', h' ≠ h → ∀ val, s.handler h' ≠ .store val) :
    Inv obj ((s.setId val s.oids.keys.length).goto h (.store val)) where
  keys := hinv.keys
  alone := by
    intro h₁ h₂ val₁ val₂ hval₁ hval₂
    -- Nobody else is storing, so both are `h`.
    have honly : ∀ h' val', ((s.setId val s.oids.keys.length).goto h (.store val)).handler h' =
        .store val' → h' = h := by
      intro h' val' hval'
      by_contra hne
      rw [handler_goto_of_ne _ hne] at hval'
      exact hapart h' hne val' hval'
    rw [honly h₁ val₁ hval₁, honly h₂ val₂ hval₂]
  reserved := by
    intro h' val' hval'
    by_cases heq : h' = h
    · rw [heq, handler_goto, Handler.store.injEq] at hval'
      subst hval'
      exact update_self ..
    · rw [handler_goto_of_ne _ heq] at hval'
      exact absurd hval' (hapart h' heq val')
  stored := by
    intro val' i hid
    by_cases heq : val' = val
    · exact .inl ⟨h, by rw [heq, handler_goto]⟩
    · rcases hinv.stored ((update_of_ne heq _ _).symm.trans hid) with ⟨h', hval'⟩ | hval'
      · have hne : h' ≠ h := by
          rintro rfl
          rw [hat] at hval'
          cases hval'
        exact absurd hval' (hapart h' hne val')
      · exact .inr hval'
  sent := hinv.sent
  lookup := by
    intro h' oid o hval'
    exact hinv.lookup (handler_goto_eq (by simp) hval')
  calls := hinv.calls

omit [DecidableEq P] in
theorem Inv.store (hinv : Inv obj s) {id : ℕ} (hat : s.handler h = .store val)
    (hid : s.id val = some id) :
    Inv obj ((s.setOid id (obj val)).goto h (.send (some val))) := by
  have hlen : id = s.oids.keys.length := some.inj (hid.symm.trans (hinv.reserved hat))
  have hnew : id ∉ s.oids := by
    rw [hinv.keys, hlen]
    exact Nat.lt_irrefl _
  have hkeys : (s.oids.insert id (obj val)).keys.length = s.oids.keys.length + 1 := by
    rw [AList.keys_insert, erase_of_not_mem (fun hmem => hnew (AList.mem_keys.mpr hmem)),
      length_cons]
  have hkeep : ∀ i o, s.oids.lookup i = some o →
      (s.oids.insert id (obj val)).lookup i = some o := by
    intro i o hi
    have hne : i ≠ id := by
      rintro rfl
      rw [AList.lookup_eq_none.mpr hnew] at hi
      cases hi
    rw [AList.lookup_insert_ne hne]
    exact hi
  have hgone : ∀ h' val', ((s.setOid id (obj val)).goto h (.send (some val))).handler h' ≠
      .store val' := by
    intro h' val' hval'
    have hbefore := handler_goto_eq (by simp) hval'
    rw [hinv.alone hbefore hat, handler_goto] at hval'
    cases hval'
  refine ⟨?_, ?_, ?_, ?_, ?_, ?_, hinv.calls⟩
  · intro i
    change i ∈ s.oids.insert id (obj val) ↔ i < (s.oids.insert id (obj val)).keys.length
    rw [AList.mem_insert, hinv.keys, hkeys, hlen]
    omega
  · intro h₁ h₂ val₁ val₂ hval₁
    exact absurd hval₁ (hgone h₁ val₁)
  · intro h₁ val₁ hval₁
    exact absurd hval₁ (hgone h₁ val₁)
  · intro val' i hid'
    rcases hinv.stored hid' with ⟨h', hval'⟩ | hval'
    · have heq := hinv.alone hval' hat
      rw [heq, hat, Handler.store.injEq] at hval'
      subst hval'
      obtain rfl := some.inj (hid.symm.trans hid')
      exact .inr (AList.lookup_insert _)
    · exact .inr (hkeep _ _ hval')
  · intro p hp
    exact hkeep _ _ (hinv.sent p hp)
  · intro h' oid o hval'
    exact hkeep _ _ (hinv.lookup (handler_goto_eq (by simp) hval'))

theorem Inv.step (hinv : Inv obj s) (hok : Apart s (h, a))
    (htrans : Trans obj s h a t) : Inv obj t := by
  cases htrans with
  | request hidle hsent =>
    refine hinv.goto (by simp [hidle]) (by simp) ?_
    intro oid o heq
    cases heq
    exact hinv.sent _ hsent
  | lookup hat hnext =>
    refine (hinv.append_calls (hinv.lookup hat)).goto (by simp [hat]) ?_ ?_
    · intro val heq
      rcases hnext with rfl | rfl <;> cases heq
    · intro oid o heq
      rcases hnext with rfl | rfl <;> cases heq
  | returns hat | proxy hat | done hat => exact hinv.goto (by simp [hat]) (by simp) (by simp)
  | size hat =>
    refine hinv.size hat ?_
    intro h' hne val hval
    have hnone := hok h' hne
    rw [hval] at hnone
    cases hnone
  | store hat hid => exact hinv.store hat hid
  | send hat hid =>
    refine (hinv.append_sent ?_).goto (by simp [hat]) (by simp) (by simp)
    rcases hinv.stored hid with ⟨h', hval⟩ | hlookup
    · have hother := hok h'
      rw [hval, hat] at hother
      exact absurd rfl (hother.resolve_left (by simp [Handler.stores]))
    · exact hlookup

end

omit [DecidableEq H] [DecidableEq P] in
theorem Inv.start (obj : P → O) (root : O) : Inv obj (start root : State H O P) where
  keys := by
    intro i
    change i ∈ [0] ↔ i < 1
    rw [mem_singleton]
    omega
  alone := by
    intro h h' val val' hval
    cases hval
  reserved := by
    intro h val hval
    cases hval
  stored := by
    intro val i hid
    cases hid
  sent := by
    intro p hp
    rw [mem_singleton.mp hp]
    rfl
  lookup := by
    intro h oid o hval
    cases hval
  calls := by
    intro c hc
    cases hc

/-- In every run in which registrations are not interleaved: objects sent as proxies are in
the table under the ids sent, so different objects have different ids, and every call made
through a proxy found the object of the proxy. -/
theorem proxies_identify (obj : P → O) (root : O) (s : State H O P)
    (hs : Reachable (system obj root) Apart s) :
    (∀ p ∈ s.sent, s.oids.lookup p.1 = some p.2) ∧
      (∀ p ∈ s.sent, ∀ q ∈ s.sent, p.2 ≠ q.2 → p.1 ≠ q.1) ∧ ∀ c ∈ s.calls, c.2 = some c.1 := by
  have hinv : Inv obj s := by
    refine hs.invariant ?_ ?_
    · intro s hinit
      rw [show s = Server.start root from hinit]
      exact Inv.start obj root
    · rintro s ⟨h, a⟩ t - hinv hok hstep
      exact hinv.step hok (trans_of_step hstep)
  refine ⟨hinv.sent, ?_, hinv.calls⟩
  intro p hp q hq hne heq
  have hboth := hinv.sent p hp
  rw [heq, hinv.sent q hq] at hboth
  exact hne (some.inj hboth).symm

/-- Two methods that return proxies one after the other, and a call through the first. -/
theorem proxies_identify_two : ∃ s : State (Fin 3) ℕ ℕ, s.sent = [(0, 0), (1, 1), (2, 2)] ∧
      s.calls = [(0, some 0), (0, some 0), (1, some 1)] ∧
      ((∀ p ∈ s.sent, s.oids.lookup p.1 = some p.2) ∧
        (∀ p ∈ s.sent, ∀ q ∈ s.sent, p.2 ≠ q.2 → p.1 ≠ q.1) ∧ ∀ c ∈ s.calls, c.2 = some c.1) := by
  have hinit : (system (fun val => val) 0).initial (start 0 : State (Fin 3) ℕ ℕ) := rfl
  obtain ⟨s, hs, hsent, hcalls⟩ := exists_reachable (system (fun val => val) 0) Apart
    (fun s : State (Fin 3) ℕ ℕ => s.sent = [(0, 0), (1, 1), (2, 2)] ∧
      s.calls = [(0, some 0), (0, some 0), (1, some 1)])
    [(0, .request 0), (1, .request 0), (0, .lookup), (1, .lookup), (0, .returns (.proxy 1)),
      (1, .returns (.proxy 2)), (0, .size), (0, .store), (1, .size), (0, .send), (1, .store),
      (1, .send), (2, .request 1), (2, .lookup)] hinit (by decide +kernel)
  exact ⟨s, hsent, hcalls, proxies_identify (fun val => val) 0 s hs⟩

/-- Two handlers read the same size: the second object replaces the first, both proxies have
the id 1, and a call through the first proxy is executed on the second object. -/
theorem proxies_collide :
    ∃ s : State (Fin 3) ℕ ℕ, Reachable (system (fun val => val) 0) (fun _ _ => True) s ∧
      (1, 1) ∈ s.sent ∧ (1, 2) ∈ s.sent ∧ (1, some 2) ∈ s.calls := by
  have hinit : (system (fun val => val) 0).initial (start 0 : State (Fin 3) ℕ ℕ) := rfl
  exact exists_reachable (system (fun val => val) 0) (fun _ _ => True)
    (fun s : State (Fin 3) ℕ ℕ => (1, 1) ∈ s.sent ∧ (1, 2) ∈ s.sent ∧ (1, some 2) ∈ s.calls)
    [(0, .request 0), (1, .request 0), (0, .lookup), (1, .lookup), (0, .returns (.proxy 1)),
      (1, .returns (.proxy 2)), (0, .size), (1, .size), (0, .store), (1, .store), (0, .send),
      (1, .send), (2, .request 1), (2, .lookup)] hinit (by decide +kernel)

end Mosbench.Mparts.Server
