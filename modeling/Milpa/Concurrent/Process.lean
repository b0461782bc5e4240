import Mathlib.Data.Nat.Notation
import Mathlib.Logic.Relation
import Mathlib.Tactic.NthRewrite

/-!
# Processes that share a state

A process is the tree of its atomic actions: an action changes the state, the process goes
on from what it found, and an operation that fails leaves the state as it is. What others
do between two actions is not part of the tree. So a trace of a process (`Steps`) has any
state before each of its actions, and a property of all traces holds under any
interleaving (`Pool.steps_of_run`). A process that runs alone is a function (`run`), and
its trace is then a chain of states (`run_of_returns`). A crash is a process that makes no
more steps.
-/

namespace Milpa.Concurrent

/-- A process over a state, with the name of each operation. -/
inductive Process (κ σ ε α : Type) where
  | pure (a : α)
  | fail (e : ε)
  | act (op : κ) (write : σ → σ) (next : σ → Process κ σ ε α) (failed : Process κ σ ε α)

/-- An action that a process has made. -/
structure Event (κ σ : Type) where
  op : κ
  before : σ
  after : σ
  /-- The operation has failed. -/
  failed : Bool

namespace Process

variable {κ σ ε α β : Type}

/-- One process after the other. -/
def bind : Process κ σ ε α → (α → Process κ σ ε β) → Process κ σ ε β
  | pure a, f => f a
  | fail e, _ => fail e
  | act op write next failed, f => act op write (fun s => (next s).bind f) (failed.bind f)

instance : Monad (Process κ σ ε) where
  pure := pure
  bind := bind

@[simp] theorem pure_bind (a : α) (f : α → Process κ σ ε β) : (Pure.pure a : Process κ σ ε α) >>= f = f a := rfl

@[simp] theorem fail_bind (e : ε) (f : α → Process κ σ ε β) : (fail e : Process κ σ ε α) >>= f = fail e := rfl

@[simp] theorem act_bind (op : κ) (write : σ → σ) (next : σ → Process κ σ ε α) (failed : Process κ σ ε α)
    (f : α → Process κ σ ε β) : act op write next failed >>= f = act op write (fun s => next s >>= f) (failed >>= f) := rfl

theorem bind_assoc {γ : Type} (p : Process κ σ ε α) (f : α → Process κ σ ε β) (k : β → Process κ σ ε γ) :
    p >>= f >>= k = p >>= fun a => f a >>= k := by
  induction p with
  | pure a => rfl
  | fail e => rfl
  | act op write next failed ih ihfailed =>
    change act op write (fun s => next s >>= f >>= k) (failed >>= f >>= k) = _
    rw [funext ih, ihfailed]
    rfl

/-- What a process has come to. -/
def ofExcept : Except ε α → Process κ σ ε α
  | .ok a => pure a
  | .error e => fail e

/-! ### Traces -/

/-- What a process does in some trace, in any surroundings; operations fail if they may. -/
inductive Steps (faulty : Prop) : Process κ σ ε α → List (Event κ σ) → Process κ σ ε α → Prop
  | refl (p : Process κ σ ε α) : Steps faulty p [] p
  | act {op : κ} {write : σ → σ} {next : σ → Process κ σ ε α} {failed q : Process κ σ ε α} {l : List (Event κ σ)} (s : σ)
      (h : Steps faulty (next s) l q) : Steps faulty (.act op write next failed) (⟨op, s, write s, false⟩ :: l) q
  | fault {op : κ} {write : σ → σ} {next : σ → Process κ σ ε α} {failed q : Process κ σ ε α} {l : List (Event κ σ)} (s : σ)
      (hfaulty : faulty) (h : Steps faulty failed l q) :
      Steps faulty (.act op write next failed) (⟨op, s, s, true⟩ :: l) q

/-- A trace to the end of a process. -/
def Returns (faulty : Prop) (p : Process κ σ ε α) (l : List (Event κ σ)) (r : Except ε α) : Prop :=
  Steps faulty p l (ofExcept r)

variable {faulty : Prop} {p q : Process κ σ ε α} {l l' : List (Event κ σ)} {f : α → Process κ σ ε β}

theorem Steps.trans {q' : Process κ σ ε α} (h : Steps faulty p l q) (h' : Steps faulty q l' q') : Steps faulty p (l ++ l') q' := by
  induction h with
  | refl p => exact h'
  | act s _ ih => exact .act s (ih h')
  | fault s hfaulty _ ih => exact .fault s hfaulty (ih h')

theorem Steps.mono {faulty' : Prop} (hfaulty : faulty → faulty') (h : Steps faulty p l q) : Steps faulty' p l q := by
  induction h with
  | refl p => exact .refl p
  | act s _ ih => exact .act s ih
  | fault s hf _ ih => exact .fault s (hfaulty hf) ih

/-- A trace goes on from its first part. -/
theorem Steps.split (h : Steps faulty p (l ++ l') q) : ∃ r, Steps faulty p l r ∧ Steps faulty r l' q := by
  induction l generalizing p with
  | nil => exact ⟨p, .refl p, h⟩
  | cons ev l ih =>
    cases h with
    | act s h =>
      obtain ⟨r, hr, hq⟩ := ih h
      exact ⟨r, .act s hr, hq⟩
    | fault s hfaulty h =>
      obtain ⟨r, hr, hq⟩ := ih h
      exact ⟨r, .fault s hfaulty hr, hq⟩

/-- The traces of one process after the other. -/
theorem steps_bind {q : Process κ σ ε β} (h : Steps faulty (p >>= f) l q) :
    (∃ p', Steps faulty p l p' ∧ q = p' >>= f) ∨
      ∃ a l₁ l₂, l = l₁ ++ l₂ ∧ Returns faulty p l₁ (.ok a) ∧ Steps faulty (f a) l₂ q := by
  induction p generalizing l with
  | pure a => exact .inr ⟨a, [], l, rfl, .refl _, h⟩
  | fail e =>
    cases h
    exact .inl ⟨fail e, .refl _, rfl⟩
  | act op write next failed ih ihfailed =>
    rw [act_bind] at h
    cases h with
    | refl => exact .inl ⟨_, .refl _, rfl⟩
    | act s h =>
      rcases ih s h with ⟨p', hp', rfl⟩ | ⟨a, l₁, l₂, rfl, ha, hq⟩
      · exact .inl ⟨p', .act s hp', rfl⟩
      · exact .inr ⟨a, _, l₂, rfl, .act s ha, hq⟩
    | fault s hfaulty h =>
      rcases ihfailed h with ⟨p', hp', rfl⟩ | ⟨a, l₁, l₂, rfl, ha, hq⟩
      · exact .inl ⟨p', .fault s hfaulty hp', rfl⟩
      · exact .inr ⟨a, _, l₂, rfl, .fault s hfaulty ha, hq⟩

theorem steps_pure {a : α} : Steps faulty (Pure.pure a : Process κ σ ε α) l q ↔ l = [] ∧ q = Pure.pure a := by
  constructor
  · intro h
    change Steps faulty (pure a) l q at h
    cases h
    exact ⟨rfl, rfl⟩
  · rintro ⟨rfl, rfl⟩
    exact .refl _

theorem steps_fail {e : ε} : Steps faulty (fail e : Process κ σ ε α) l q ↔ l = [] ∧ q = fail e := by
  constructor
  · intro h
    cases h
    exact ⟨rfl, rfl⟩
  · rintro ⟨rfl, rfl⟩
    exact .refl _

theorem returns_pure {a : α} {r : Except ε α} : Returns faulty (Pure.pure a : Process κ σ ε α) l r ↔ l = [] ∧ r = .ok a := by
  refine steps_pure.trans (and_congr_right fun _ => ?_)
  cases r with
  | ok b => exact ⟨fun h => by cases h; rfl, fun h => by cases h; rfl⟩
  | error e => exact ⟨nofun, nofun⟩

theorem returns_fail {e : ε} {r : Except ε α} : Returns faulty (fail e : Process κ σ ε α) l r ↔ l = [] ∧ r = .error e := by
  refine steps_fail.trans (and_congr_right fun _ => ?_)
  cases r with
  | ok b => exact ⟨nofun, nofun⟩
  | error e' => exact ⟨fun h => by cases h; rfl, fun h => by cases h; rfl⟩

theorem returns_ofExcept {r r' : Except ε α} : Returns faulty (ofExcept r' : Process κ σ ε α) l r ↔ l = [] ∧ r = r' := by
  cases r' with
  | ok a => exact returns_pure
  | error e => exact returns_fail

theorem returns_act {op : κ} {write : σ → σ} {next : σ → Process κ σ ε α} {failed : Process κ σ ε α} {r : Except ε α} :
    Returns faulty (act op write next failed) l r ↔
      (∃ s l', l = ⟨op, s, write s, false⟩ :: l' ∧ Returns faulty (next s) l' r) ∨
        faulty ∧ ∃ s l', l = ⟨op, s, s, true⟩ :: l' ∧ Returns faulty failed l' r := by
  constructor
  · intro h
    unfold Returns at h
    generalize hq : ofExcept r = q at h
    cases h with
    | refl => cases r <;> cases hq
    | act s h =>
      subst hq
      exact .inl ⟨s, _, rfl, h⟩
    | fault s hfaulty h =>
      subst hq
      exact .inr ⟨hfaulty, s, _, rfl, h⟩
  · rintro (⟨s, l', rfl, h⟩ | ⟨hfaulty, s, l', rfl, h⟩)
    · exact .act s h
    · exact .fault s hfaulty h

/-- A sequence ends where its first part fails, or after its second part. -/
theorem returns_bind {r : Except ε β} (h : Returns faulty (p >>= f) l r) :
    (∃ e, r = .error e ∧ Returns faulty p l (.error e)) ∨
      ∃ a l₁ l₂, l = l₁ ++ l₂ ∧ Returns faulty p l₁ (.ok a) ∧ Returns faulty (f a) l₂ r := by
  rcases steps_bind h with ⟨p', hp', heq⟩ | h
  · cases p' with
    | pure a =>
      change ofExcept r = f a at heq
      refine .inr ⟨a, l, [], (List.append_nil l).symm, hp', ?_⟩
      rw [← heq]
      exact .refl _
    | fail e =>
      cases r with
      | ok b => cases heq
      | error e' =>
        cases heq
        exact .inl ⟨e, rfl, hp'⟩
    | act op write next failed => cases r <;> cases heq
  · exact .inr h

/-- The second part of a sequence that gives a value. -/
theorem returns_bind_ok {b : β} (h : Returns faulty (p >>= f) l (.ok b)) :
    ∃ a l₁ l₂, l = l₁ ++ l₂ ∧ Returns faulty p l₁ (.ok a) ∧ Returns faulty (f a) l₂ (.ok b) := by
  rcases returns_bind h with ⟨e, he, -⟩ | h
  · cases he
  · exact h

/-! ### Actions -/

/-- Every action of a process is of a kind. -/
def Acts (kind : κ → (σ → σ) → Prop) : Process κ σ ε α → Prop
  | pure _ => True
  | fail _ => True
  | act op write next failed => kind op write ∧ (∀ s, (next s).Acts kind) ∧ failed.Acts kind

variable {kind kind' : κ → (σ → σ) → Prop}

theorem Acts.mono (h : p.Acts kind) (hkind : ∀ op write, kind op write → kind' op write) : p.Acts kind' := by
  induction p with
  | pure a => trivial
  | fail e => trivial
  | act op write next failed ih ihfailed => exact ⟨hkind op write h.1, fun s => ih s (h.2.1 s), ihfailed h.2.2⟩

theorem Acts.bind (h : p.Acts kind) (hf : ∀ a, (f a).Acts kind) : (p >>= f).Acts kind := by
  induction p with
  | pure a => exact hf a
  | fail e => trivial
  | act op write next failed ih ihfailed => exact ⟨h.1, fun s => ih s (h.2.1 s), ihfailed h.2.2⟩

theorem acts_ofExcept (r : Except ε α) : (ofExcept r : Process κ σ ε α).Acts kind := by
  cases r <;> trivial

/-- So is every action of a trace. -/
theorem Acts.steps (hp : p.Acts kind) (h : Steps faulty p l q) :
    (∀ ev ∈ l, ∃ write, kind ev.op write ∧ ev.after = if ev.failed then ev.before else write ev.before) ∧ q.Acts kind := by
  induction h with
  | refl p => exact ⟨fun ev hev => absurd hev List.not_mem_nil, hp⟩
  | @act op write next failed q l s _ ih =>
    obtain ⟨hrest, hq⟩ := ih (hp.2.1 s)
    exact ⟨List.forall_mem_cons.mpr ⟨⟨write, hp.1, rfl⟩, hrest⟩, hq⟩
  | @fault op write next failed q l s _ _ ih =>
    obtain ⟨hrest, hq⟩ := ih hp.2.2
    exact ⟨List.forall_mem_cons.mpr ⟨⟨write, hp.1, rfl⟩, hrest⟩, hq⟩

/-- What a process never does is in no trace of it. -/
theorem Acts.not_mem {op₀ : κ} (hp : p.Acts fun op _ => op ≠ op₀) (h : Steps faulty p l q) : ∀ ev ∈ l, ev.op ≠ op₀ := fun ev hev => by
  obtain ⟨write, hop, -⟩ := (hp.steps h).1 ev hev
  exact hop

/-- An action that the first of two processes never makes is made by the second one. -/
theorem steps_bind_last {ev : Event κ σ} {q : Process κ σ ε β} (hp : p.Acts fun op _ => op ≠ ev.op)
    (h : Steps faulty (p >>= f) (l ++ [ev]) q) :
    ∃ a l₁ l₂, l = l₁ ++ l₂ ∧ Returns faulty p l₁ (.ok a) ∧ Steps faulty (f a) (l₂ ++ [ev]) q := by
  rcases steps_bind h with ⟨p', hp', -⟩ | ⟨a, l₁, l₂, hl, ha, hq⟩
  · exact absurd rfl (hp.not_mem hp' ev (by simp))
  rcases List.eq_nil_or_concat l₂ with rfl | ⟨l₃, ev', rfl⟩
  · rw [List.append_nil] at hl
    exact absurd rfl (hp.not_mem ha ev (by simp [← hl]))
  · rw [List.concat_eq_append] at hl hq
    rw [← List.append_assoc] at hl
    obtain ⟨rfl, hev⟩ := List.append_inj' hl rfl
    cases hev
    exact ⟨a, l₁, l₃, rfl, ha, hq⟩

/-- An action that the second of two processes never makes is made by the first one. -/
theorem steps_bind_first {ev : Event κ σ} {q : Process κ σ ε β} (hf : ∀ a, (f a).Acts fun op _ => op ≠ ev.op)
    (h : Steps faulty (p >>= f) (l ++ [ev]) q) : ∃ q', Steps faulty p (l ++ [ev]) q' := by
  rcases steps_bind h with ⟨p', hp', -⟩ | ⟨a, l₁, l₂, hl, ha, hq⟩
  · exact ⟨p', hp'⟩
  rcases List.eq_nil_or_concat l₂ with rfl | ⟨l₃, ev', rfl⟩
  · rw [hl, List.append_nil]
    exact ⟨_, ha⟩
  · rw [List.concat_eq_append] at hl hq
    rw [← List.append_assoc] at hl
    obtain ⟨-, hev⟩ := List.append_inj' hl rfl
    cases hev
    exact absurd rfl ((hf a).not_mem hq ev (by simp))

/-! ### A process alone -/

/-- What a process comes to where nothing interferes and no operation fails. -/
def run : Process κ σ ε α → σ → Except ε α × σ
  | pure a, s => (.ok a, s)
  | fail e, s => (.error e, s)
  | act _ write next _, s => run (next s) (write s)

/-- Each action finds the state that the one before has left. -/
inductive Chained : σ → List (Event κ σ) → σ → Prop
  | nil (s : σ) : Chained s [] s
  | cons {ev : Event κ σ} {l : List (Event κ σ)} {s : σ} (h : Chained ev.after l s) : Chained ev.before (ev :: l) s

@[simp] theorem chained_nil {s s' : σ} : Chained s ([] : List (Event κ σ)) s' ↔ s = s' :=
  ⟨fun h => by cases h; rfl, fun h => h ▸ .nil s⟩

@[simp] theorem chained_cons {ev : Event κ σ} {s s' : σ} : Chained s (ev :: l) s' ↔ s = ev.before ∧ Chained ev.after l s' :=
  ⟨fun h => by cases h with | cons h => exact ⟨rfl, h⟩, fun ⟨hs, h⟩ => hs ▸ .cons h⟩

theorem chained_append {s s' : σ} : Chained s (l ++ l') s' ↔ ∃ t, Chained s l t ∧ Chained t l' s' := by
  induction l generalizing s with
  | nil => simp
  | cons ev l ih =>
    rw [List.cons_append, chained_cons, ih]
    constructor
    · rintro ⟨hs, t, ht, h⟩
      exact ⟨t, chained_cons.mpr ⟨hs, ht⟩, h⟩
    · rintro ⟨t, ht, h⟩
      exact ⟨(chained_cons.mp ht).1, t, (chained_cons.mp ht).2, h⟩

/-- What is kept by each action is kept by all of them. -/
theorem Chained.invariant {P : σ → Prop} {s s' : σ} (h : Chained s l s') (hs : P s) (hstep : ∀ ev ∈ l, P ev.before → P ev.after) :
    P s' := by
  induction l generalizing s with
  | nil => exact chained_nil.mp h ▸ hs
  | cons ev l ih =>
    obtain ⟨rfl, hl⟩ := chained_cons.mp h
    exact ih hl (hstep ev List.mem_cons_self hs) fun ev' hev' => hstep ev' (List.mem_cons_of_mem ev hev')

/-- A trace alone is what the function computes. -/
theorem run_of_returns {s s' : σ} {r : Except ε α} (h : Returns False p l r) (hc : Chained s l s') : p.run s = (r, s') := by
  induction p generalizing l s with
  | pure a =>
    obtain ⟨rfl, rfl⟩ := returns_pure.mp h
    rw [chained_nil.mp hc]
    rfl
  | fail e =>
    obtain ⟨rfl, rfl⟩ := returns_fail.mp h
    rw [chained_nil.mp hc]
    rfl
  | act op write next failed ih _ =>
    obtain ⟨t, l', rfl, hrest⟩ | ⟨hf, -⟩ := returns_act.mp h
    · obtain ⟨rfl, hl⟩ := chained_cons.mp hc
      exact ih s hrest hl
    · exact hf.elim

/-- What the function computes is a trace alone. -/
theorem exists_returns (p : Process κ σ ε α) (s : σ) : ∃ l, Returns False p l (p.run s).1 ∧ Chained s l (p.run s).2 := by
  induction p generalizing s with
  | pure a => exact ⟨[], .refl _, .nil s⟩
  | fail e => exact ⟨[], .refl _, .nil s⟩
  | act op write next failed ih _ =>
    obtain ⟨l, hl, hc⟩ := ih s (write s)
    exact ⟨⟨op, s, write s, false⟩ :: l, .act s hl, chained_cons.mpr ⟨rfl, hc⟩⟩

@[simp] theorem run_pure (a : α) (s : σ) : (Pure.pure a : Process κ σ ε α).run s = (.ok a, s) := rfl

@[simp] theorem run_fail (e : ε) (s : σ) : (fail e : Process κ σ ε α).run s = (.error e, s) := rfl

@[simp] theorem run_act (op : κ) (write : σ → σ) (next : σ → Process κ σ ε α) (failed : Process κ σ ε α) (s : σ) :
    (act op write next failed).run s = (next s).run (write s) := rfl

/-- What a process has come to. -/
def ended : Process κ σ ε α → Option (Except ε α)
  | pure a => some (.ok a)
  | fail e => some (.error e)
  | act _ _ _ _ => none

theorem eq_of_ended {r : Except ε α} (h : p.ended = some r) : p = ofExcept r := by
  cases p <;> cases h <;> rfl

theorem run_bind (p : Process κ σ ε α) (f : α → Process κ σ ε β) (s : σ) :
    (p >>= f).run s = match p.run s with
      | (.ok a, s') => (f a).run s'
      | (.error e, s') => (.error e, s') := by
  induction p generalizing s with
  | pure a => rfl
  | fail e => rfl
  | act op write next failed ih _ => exact ih s (write s)

end Process

open Process

variable {κ σ ε α ι : Type}

/-! ### One call after the other -/

/-- The states that calls reach one after the other, each of which may be cut off: `allowed` says which calls with what trace. -/
def Calls (program : ι → Process κ σ ε α) (allowed : ι → List (Event κ σ) → Prop) : σ → σ → Prop :=
  Relation.ReflTransGen fun s s' => ∃ i l q, allowed i l ∧ Steps False (program i) l q ∧ Chained s l s'

/-- A whole call is one of them. -/
theorem calls_run (program : ι → Process κ σ ε α) (allowed : ι → List (Event κ σ) → Prop) (i : ι) (h : ∀ l, allowed i l) (s : σ) :
    Calls program allowed s ((program i).run s).2 := by
  obtain ⟨l, hl, hc⟩ := exists_returns (program i) s
  exact .single ⟨i, l, _, h l, hl, hc⟩

/-! ### Interleavings -/

/-- A process that was started: what it has done so far, and what it has yet to do. -/
structure Thread (κ σ ε α ι : Type) where
  call : ι
  own : List (Event κ σ)
  rest : Process κ σ ε α

/-- A state, and the processes that were started. -/
structure Pool (κ σ ε α ι : Type) where
  state : σ
  threads : List (Thread κ σ ε α ι)

namespace Pool

/-- One more call, or one more action of one process: `meets` says what actions there are, after what the process has done. -/
inductive Step (faulty : Prop) (program : ι → Process κ σ ε α) (meets : List (Event κ σ) → Event κ σ → Prop) :
    Pool κ σ ε α ι → Pool κ σ ε α ι → Prop
  | start (i : ι) (s : σ) (threads : List (Thread κ σ ε α ι)) :
      Step faulty program meets ⟨s, threads⟩ ⟨s, threads ++ [⟨i, [], program i⟩]⟩
  | act {s : σ} {before after : List (Thread κ σ ε α ι)} {i : ι} {own : List (Event κ σ)} {op : κ} {write : σ → σ}
      {next : σ → Process κ σ ε α} {failed : Process κ σ ε α} (hmeets : meets own ⟨op, s, write s, false⟩) :
      Step faulty program meets ⟨s, before ++ ⟨i, own, .act op write next failed⟩ :: after⟩
        ⟨write s, before ++ ⟨i, own ++ [⟨op, s, write s, false⟩], next s⟩ :: after⟩
  | fault {s : σ} {before after : List (Thread κ σ ε α ι)} {i : ι} {own : List (Event κ σ)} {op : κ} {write : σ → σ}
      {next : σ → Process κ σ ε α} {failed : Process κ σ ε α} (hfaulty : faulty) (hmeets : meets own ⟨op, s, s, true⟩) :
      Step faulty program meets ⟨s, before ++ ⟨i, own, .act op write next failed⟩ :: after⟩
        ⟨s, before ++ ⟨i, own ++ [⟨op, s, s, true⟩], failed⟩ :: after⟩

/-- Steps one after the other. -/
def Run (faulty : Prop) (program : ι → Process κ σ ε α) (meets : List (Event κ σ) → Event κ σ → Prop) :
    Pool κ σ ε α ι → Pool κ σ ε α ι → Prop :=
  Relation.ReflTransGen (Step faulty program meets)

variable {faulty : Prop} {program : ι → Process κ σ ε α} {meets : List (Event κ σ) → Event κ σ → Prop}
variable {P P' : Pool κ σ ε α ι}

/-- What each process has done is a trace of its call. -/
def Traced (faulty : Prop) (program : ι → Process κ σ ε α) (P : Pool κ σ ε α ι) : Prop :=
  ∀ t ∈ P.threads, Steps faulty (program t.call) t.own t.rest

theorem Traced.step (h : Traced faulty program P) (hstep : Step faulty program meets P P') : Traced faulty program P' := by
  intro t ht
  cases hstep with
  | start i s threads =>
    rcases List.mem_append.mp ht with ht | ht
    · exact h t ht
    · rw [List.mem_singleton.mp ht]
      exact .refl _
  | @act s before after i own op write next failed hmeets =>
    rcases List.mem_append.mp ht with ht | ht
    · exact h t (List.mem_append_left _ ht)
    · rcases List.mem_cons.mp ht with rfl | ht
      · have hown := h ⟨i, own, .act op write next failed⟩ (List.mem_append_right _ List.mem_cons_self)
        exact hown.trans (.act s (.refl _))
      · exact h t (List.mem_append_right _ (List.mem_cons_of_mem _ ht))
  | @fault s before after i own op write next failed hfaulty hmeets =>
    rcases List.mem_append.mp ht with ht | ht
    · exact h t (List.mem_append_left _ ht)
    · rcases List.mem_cons.mp ht with rfl | ht
      · have hown := h ⟨i, own, .act op write next failed⟩ (List.mem_append_right _ List.mem_cons_self)
        exact hown.trans (.fault s hfaulty (.refl _))
      · exact h t (List.mem_append_right _ (List.mem_cons_of_mem _ ht))

/-- In every interleaving, what a process has done is a trace of its call. -/
theorem traced_of_run {s : σ} (h : Run faulty program meets ⟨s, []⟩ P) : Traced faulty program P := by
  induction h with
  | refl => exact fun t ht => absurd ht List.not_mem_nil
  | tail _ hstep ih => exact ih.step hstep

/-- What a step does to the state: nothing, or the action that one process makes next. -/
theorem Step.cases_state (h : Traced faulty program P) (hstep : Step faulty program meets P P') :
    P'.state = P.state ∨ ∃ i own ev q, meets own ev ∧ Steps faulty (program i) (own ++ [ev]) q ∧
      P.state = ev.before ∧ P'.state = ev.after := by
  cases hstep with
  | start i s threads => exact .inl rfl
  | @act s before after i own op write next failed hmeets =>
    have hown := h ⟨i, own, .act op write next failed⟩ (List.mem_append_right _ List.mem_cons_self)
    exact .inr ⟨i, own, _, _, hmeets, hown.trans (.act s (.refl _)), rfl, rfl⟩
  | @fault s before after i own op write next failed hfaulty hmeets => exact .inl rfl

/-- What each action of a call keeps is kept in every interleaving. -/
theorem Run.induction {R : σ → σ → Prop} (hrefl : ∀ s, R s s) (htrans : ∀ s s' s'', R s s' → R s' s'' → R s s'')
    (hact : ∀ i own ev q, meets own ev → Steps faulty (program i) (own ++ [ev]) q → R ev.before ev.after)
    (h : Traced faulty program P) (hrun : Run faulty program meets P P') : R P.state P'.state := by
  have both : R P.state P'.state ∧ Traced faulty program P' := by
    induction hrun with
    | refl => exact ⟨hrefl _, h⟩
    | tail _ hstep ih =>
      refine ⟨htrans _ _ _ ih.1 ?_, ih.2.step hstep⟩
      rcases hstep.cases_state ih.2 with heq | ⟨i, own, ev, q, hmeets, hsteps, hbefore, hafter⟩
      · rw [heq]
        exact hrefl _
      · rw [hbefore, hafter]
        exact hact i own ev q hmeets hsteps
  exact both.1

/-- A trace alone is a run of one process among others that do not move. -/
theorem run_of_steps {s s' : σ} {threads : List (Thread κ σ ε α ι)} {i : ι} {own l : List (Event κ σ)} {p q : Process κ σ ε α}
    (h : Steps faulty p l q) (hc : Chained s l s')
    (hmeets : ∀ own' ev, own' ++ [ev] <+: own ++ l → own <+: own' → meets own' ev) :
    Run faulty program meets ⟨s, threads ++ [⟨i, own, p⟩]⟩ ⟨s', threads ++ [⟨i, own ++ l, q⟩]⟩ := by
  induction h generalizing s own with
  | refl p =>
    rw [chained_nil.mp hc, List.append_nil]
    exact .refl
  | @act op write next failed q l t h ih =>
    obtain ⟨rfl, hl⟩ := chained_cons.mp hc
    have hsplit : own ++ ⟨op, s, write s, false⟩ :: l = (own ++ [⟨op, s, write s, false⟩]) ++ l := by simp
    have hfirst : meets own ⟨op, s, write s, false⟩ := hmeets own _ (by rw [hsplit]; exact List.prefix_append _ _) List.prefix_rfl
    rw [hsplit]
    refine .head (.act hfirst) (ih hl fun own' ev hev hown => ?_)
    exact hmeets own' ev (by rwa [hsplit]) ((List.prefix_append _ _).trans hown)
  | @fault op write next failed q l t hfaulty h ih =>
    obtain ⟨rfl, hl⟩ := chained_cons.mp hc
    have hsplit : own ++ ⟨op, s, s, true⟩ :: l = (own ++ [⟨op, s, s, true⟩]) ++ l := by simp
    have hfirst : meets own ⟨op, s, s, true⟩ := hmeets own _ (by rw [hsplit]; exact List.prefix_append _ _) List.prefix_rfl
    rw [hsplit]
    refine .head (.fault hfaulty hfirst) (ih hl fun own' ev hev hown => ?_)
    exact hmeets own' ev (by rwa [hsplit]) ((List.prefix_append _ _).trans hown)

/-- A call that runs alone. -/
theorem exists_run_call (faulty : Prop) (program : ι → Process κ σ ε α) (i : ι) (s : σ) (threads : List (Thread κ σ ε α ι)) :
    ∃ l, Run faulty program (fun _ _ => True) ⟨s, threads⟩
      ⟨((program i).run s).2, threads ++ [⟨i, l, ofExcept ((program i).run s).1⟩]⟩ := by
  obtain ⟨l, hl, hc⟩ := exists_returns (program i) s
  have hsteps : Steps faulty (program i) l (ofExcept ((program i).run s).1) := Steps.mono False.elim hl
  exact ⟨l, .head (.start i s threads) (run_of_steps hsteps hc fun _ _ _ _ => trivial)⟩

/-- Calls that have been started. -/
def launch (program : ι → Process κ σ ε α) (s : σ) (calls : List ι) : Pool κ σ ε α ι := ⟨s, calls.map fun i => ⟨i, [], program i⟩⟩

theorem run_launch (s : σ) (calls : List ι) : Run faulty program meets ⟨s, []⟩ (launch program s calls) := by
  have start : ∀ threads, Run faulty program meets ⟨s, threads⟩ ⟨s, threads ++ calls.map fun i => ⟨i, [], program i⟩⟩ := by
    induction calls with
    | nil => intro threads; simpa using .refl
    | cons i calls ih =>
      intro threads
      rw [List.map_cons, ← List.singleton_append, ← List.append_assoc]
      exact .head (.start i s threads) (ih _)
  exact start []

/-- The next action of the thread at a place. -/
def advance (P : Pool κ σ ε α ι) (k : ℕ) : Pool κ σ ε α ι :=
  match P.threads.drop k with
  | ⟨i, own, .act op write next _⟩ :: after =>
    ⟨write P.state, P.threads.take k ++ ⟨i, own ++ [⟨op, P.state, write P.state, false⟩], next P.state⟩ :: after⟩
  | _ => P

/-- A schedule: which thread moves. -/
def follow (P : Pool κ σ ε α ι) (schedule : List ℕ) : Pool κ σ ε α ι := schedule.foldl advance P

theorem calls_advance (P : Pool κ σ ε α ι) (k : ℕ) : (P.advance k).threads.map Thread.call = P.threads.map Thread.call := by
  obtain ⟨s, threads⟩ := P
  unfold advance
  dsimp only
  split
  · rename_i i own op write next failed after hdrop
    have hsplit : threads = threads.take k ++ ⟨i, own, .act op write next failed⟩ :: after := by
      rw [← hdrop, List.take_append_drop]
    nth_rewrite 2 [hsplit]
    simp
  · rfl

/-- A schedule moves the threads that there are. -/
theorem calls_follow (P : Pool κ σ ε α ι) (schedule : List ℕ) : (P.follow schedule).threads.map Thread.call = P.threads.map Thread.call := by
  induction schedule generalizing P with
  | nil => rfl
  | cons k schedule ih => exact (ih (P.advance k)).trans (calls_advance P k)

theorem run_advance (P : Pool κ σ ε α ι) (k : ℕ) : Run faulty program (fun _ _ => True) P (P.advance k) := by
  obtain ⟨s, threads⟩ := P
  unfold advance
  dsimp only
  split
  · rename_i i own op write next failed after hdrop
    have hsplit : threads = threads.take k ++ ⟨i, own, .act op write next failed⟩ :: after := by
      rw [← hdrop, List.take_append_drop]
    nth_rewrite 1 [hsplit]
    exact .single (.act trivial)
  · exact .refl

theorem run_follow (P : Pool κ σ ε α ι) (schedule : List ℕ) : Run faulty program (fun _ _ => True) P (P.follow schedule) := by
  induction schedule generalizing P with
  | nil => exact .refl
  | cons k schedule ih => exact (run_advance P k).trans (ih (P.advance k))

end Pool

end Milpa.Concurrent
