import ToyDB.Effects.Program

/-!
# Pre- and postconditions of programs

A triple states what holds of the final state of a program, for its result or for the
failure that stopped it, if the precondition holds of the initial state. Events are left
out. A program keeps an invariant if it holds in the end however the program ends.
-/
namespace ToyDB.Effects
namespace Program
variable {σ ε χ α β : Type}

/-- Runs a program and returns how it ended. -/
def attempt (x : Program σ ε χ α) : Program σ ε χ (Except χ α) := fun s =>
  ⟨.ok (x s).result, (x s).state, (x s).events⟩

end Program

open Program

section Triples
variable {σ ε χ α β : Type} {P : σ → Prop} {Q : α → σ → Prop} {E : χ → σ → Prop}

def Triple (P : σ → Prop) (x : Program σ ε χ α) (Q : α → σ → Prop) (E : χ → σ → Prop) : Prop :=
  ∀ s, P s →
    match (x s).result with
    | .ok a => Q a (x s).state
    | .error c => E c (x s).state

theorem triple_pure {a : α} (h : ∀ s, P s → Q a s) :
    Triple P (pure a : Program σ ε χ α) Q E := h

theorem triple_fail {c : χ} (h : ∀ s, P s → E c s) :
    Triple P (Program.fail c : Program σ ε χ α) Q E := h

theorem triple_draw {f : σ → α × σ} (h : ∀ s, P s → Q (f s).1 (f s).2) :
    Triple P (Program.draw f : Program σ ε χ α) Q E := h

theorem Triple.mono {P' : σ → Prop} {Q' : α → σ → Prop} {E' : χ → σ → Prop}
    {x : Program σ ε χ α} (h : Triple P x Q E) (hP : ∀ s, P' s → P s)
    (hQ : ∀ a s, Q a s → Q' a s) (hE : ∀ c s, E c s → E' c s) : Triple P' x Q' E' := by
  intro s hs
  have hx := h s (hP s hs)
  cases hr : (x s).result with
  | ok a =>
      rw [hr] at hx
      exact hQ a _ hx
  | error c =>
      rw [hr] at hx
      exact hE c _ hx

/-- Two triples of one program hold together. -/
theorem Triple.and {P' : σ → Prop} {Q' : α → σ → Prop} {E' : χ → σ → Prop}
    {x : Program σ ε χ α} (h : Triple P x Q E) (h' : Triple P' x Q' E') :
    Triple (fun s => P s ∧ P' s) x (fun a s => Q a s ∧ Q' a s) fun c s => E c s ∧ E' c s := by
  intro s ⟨hs, hs'⟩
  have hx := h s hs
  have hx' := h' s hs'
  cases hr : (x s).result with
  | ok a =>
      rw [hr] at hx hx'
      exact ⟨hx, hx'⟩
  | error c =>
      rw [hr] at hx hx'
      exact ⟨hx, hx'⟩

theorem Triple.bind {x : Program σ ε χ α} {f : α → Program σ ε χ β} {R : β → σ → Prop}
    (hx : Triple P x Q E) (hf : ∀ a, Triple (Q a) (f a) R E) : Triple P (x >>= f) R E := by
  intro s hs
  have hx := hx s hs
  change match (Program.bind x f s).result with
    | .ok b => R b (Program.bind x f s).state
    | .error c => E c (Program.bind x f s).state
  unfold Program.bind
  cases hr : x s with
  | mk r s' es =>
      rw [hr] at hx
      cases r with
      | error c => exact hx
      | ok a => exact hf a s' hx

/-- A fact about no state is available in the proof. -/
theorem triple_assume {F : Prop} {x : Program σ ε χ α} (h : F → Triple P x Q E) :
    Triple (fun s => P s ∧ F) x Q E := fun s hs => h hs.2 s hs.1

/-- A check: its failure has to satisfy the postcondition of failures. -/
theorem triple_ensure {p : Prop} [Decidable p] {c : χ} {f : Unit → Program σ ε χ α}
    (h : p → Triple P (f ()) Q E) (hn : ¬ p → ∀ s, P s → E c s) :
    Triple P (Program.ensure p c >>= f) Q E := by
  by_cases hp : p
  · rw [ensure_bind hp]
    exact h hp
  · rw [ensure_bind_not hp]
    exact triple_fail (hn hp)

theorem triple_attempt {x : Program σ ε χ α} {Q : Except χ α → σ → Prop}
    (h : Triple P x (fun a => Q (.ok a)) fun c => Q (.error c)) : Triple P x.attempt Q E := by
  intro s hs
  have hx := h s hs
  change Q (x s).result (x s).state
  cases hr : (x s).result with
  | ok a =>
      rw [hr] at hx
      exact hx
  | error c =>
      rw [hr] at hx
      exact hx

/-- What holds in the end however the program ends. -/
theorem Triple.final {I : σ → Prop} {x : Program σ ε χ α}
    (h : Triple P x (fun _ => I) fun _ => I) {s : σ} (hs : P s) : I (x s).state := by
  have hx := h s hs
  cases hr : (x s).result <;> rw [hr] at hx <;> exact hx

end Triples

/-! ## Invariants -/

/-- However the program ends, the invariant holds again. -/
def Keeps {σ ε χ α : Type} (I : σ → Prop) (x : Program σ ε χ α) : Prop :=
  Triple I x (fun _ => I) fun _ => I

section Keeps
variable {σ ε χ α β : Type} {I : σ → Prop}

theorem keeps_iff {x : Program σ ε χ α} : Keeps I x ↔ ∀ s, I s → I (x s).state := by
  constructor
  · intro h s hs
    exact h.final hs
  · intro h s hs
    cases hr : (x s).result <;> exact h s hs

theorem keeps_pure {a : α} : Keeps I (pure a : Program σ ε χ α) := fun _ h => h

theorem keeps_fail {c : χ} : Keeps I (Program.fail c : Program σ ε χ α) := fun _ h => h

/-- Reading the state changes nothing. -/
theorem keeps_read {f : σ → α} : Keeps I (Program.draw fun s => (f s, s) : Program σ ε χ α) :=
  fun _ h => h

theorem Keeps.bind {x : Program σ ε χ α} {f : α → Program σ ε χ β} (hx : Keeps I x)
    (hf : ∀ a, Keeps I (f a)) : Keeps I (x >>= f) :=
  Triple.bind hx hf

theorem keeps_attempt {x : Program σ ε χ α} (h : Keeps I x) : Keeps I x.attempt :=
  triple_attempt h

end Keeps

/-! ## Events -/

/-- A triple for the runs all of whose events satisfy a condition; their events satisfy
the guarantee. -/
def Guarantees {σ ε χ α : Type} (A G : ε → Prop) (P : σ → Prop) (x : Program σ ε χ α)
    (Q : α → σ → Prop) (E : χ → σ → Prop) : Prop :=
  ∀ s, P s → (∀ e ∈ (x s).events, A e) → (∀ e ∈ (x s).events, G e) ∧
    match (x s).result with
    | .ok a => Q a (x s).state
    | .error c => E c (x s).state

section Guarantees
variable {σ ε χ α β : Type} {A G : ε → Prop} {P : σ → Prop} {Q : α → σ → Prop} {E : χ → σ → Prop}

theorem guarantees_pure {a : α} (h : ∀ s, P s → Q a s) :
    Guarantees A G P (pure a : Program σ ε χ α) Q E :=
  fun s hs _ => ⟨fun _ he => (nomatch he), h s hs⟩

theorem guarantees_fail {c : χ} (h : ∀ s, P s → E c s) :
    Guarantees A G P (Program.fail c : Program σ ε χ α) Q E :=
  fun s hs _ => ⟨fun _ he => (nomatch he), h s hs⟩

theorem guarantees_draw {f : σ → α × σ} (h : ∀ s, P s → Q (f s).1 (f s).2) :
    Guarantees A G P (Program.draw f : Program σ ε χ α) Q E :=
  fun s hs _ => ⟨fun _ he => (nomatch he), h s hs⟩

theorem Guarantees.mono {P' : σ → Prop} {Q' : α → σ → Prop} {E' : χ → σ → Prop}
    {x : Program σ ε χ α} (h : Guarantees A G P x Q E) (hP : ∀ s, P' s → P s)
    (hQ : ∀ a s, Q a s → Q' a s) (hE : ∀ c s, E c s → E' c s) : Guarantees A G P' x Q' E' := by
  intro s hs hA
  obtain ⟨hG, hx⟩ := h s (hP s hs) hA
  refine ⟨hG, ?_⟩
  cases hr : (x s).result with
  | ok a =>
      rw [hr] at hx
      exact hQ a _ hx
  | error c =>
      rw [hr] at hx
      exact hE c _ hx

theorem Guarantees.bind {x : Program σ ε χ α} {f : α → Program σ ε χ β} {R : β → σ → Prop}
    (hx : Guarantees A G P x Q E) (hf : ∀ a, Guarantees A G (Q a) (f a) R E) :
    Guarantees A G P (x >>= f) R E := by
  intro s hs hA
  have hx := hx s hs
  change ∀ e ∈ (Program.bind x f s).events, A e at hA
  change (∀ e ∈ (Program.bind x f s).events, G e) ∧ match (Program.bind x f s).result with
    | .ok b => R b (Program.bind x f s).state
    | .error c => E c (Program.bind x f s).state
  unfold Program.bind at hA ⊢
  cases hr : x s with
  | mk r s' es =>
      rw [hr] at hx hA
      cases r with
      | error c => exact hx hA
      | ok a =>
          obtain ⟨hG, hQ⟩ := hx fun e he => hA e (List.mem_append_left _ he)
          obtain ⟨hG', hR⟩ := hf a s' hQ fun e he => hA e (List.mem_append_right _ he)
          refine ⟨fun e he => ?_, hR⟩
          obtain he | he := List.mem_append.mp he
          · exact hG e he
          · exact hG' e he

theorem guarantees_attempt {x : Program σ ε χ α} {Q : Except χ α → σ → Prop}
    (h : Guarantees A G P x (fun a => Q (.ok a)) fun c => Q (.error c)) :
    Guarantees A G P x.attempt Q E := by
  intro s hs hA
  obtain ⟨hG, hx⟩ := h s hs hA
  refine ⟨hG, ?_⟩
  change Q (x s).result (x s).state
  cases hr : (x s).result with
  | ok a =>
      rw [hr] at hx
      exact hx
  | error c =>
      rw [hr] at hx
      exact hx

end Guarantees

/-! ## Results -/

/-- Whatever the program returns satisfies the postcondition. -/
def Program.Returns {σ ε χ α : Type} (x : Program σ ε χ α) (P : α → Prop) : Prop :=
  Triple (fun _ => True) x (fun a _ => P a) fun _ _ => True

namespace Program
variable {σ ε χ α β : Type}

theorem Returns.apply {x : Program σ ε χ α} {P : α → Prop} (h : x.Returns P) {s : σ} {a : α}
    (ha : (x s).result = .ok a) : P a := by
  have hx := h s trivial
  rw [ha] at hx
  exact hx

theorem returns_pure {a : α} {P : α → Prop} (h : P a) :
    Returns (pure a : Program σ ε χ α) P := fun _ _ => h

theorem returns_fail {c : χ} {P : α → Prop} : Returns (fail c : Program σ ε χ α) P :=
  fun _ _ => trivial

/-- A fact about every value holds of the returned one. -/
theorem returns_of_forall {x : Program σ ε χ α} {P : α → Prop} (h : ∀ a, P a) :
    x.Returns P := by
  intro s _
  cases (x s).result with
  | ok a => exact h a
  | error c => trivial

/-- What follows any program returns what it would return alone. -/
theorem returns_after {x : Program σ ε χ α} {f : α → Program σ ε χ β} {P : β → Prop}
    (h : ∀ a, (f a).Returns P) : (x >>= f).Returns P :=
  Triple.bind (returns_of_forall fun _ => trivial) h

theorem returns_ensure {p : Prop} [Decidable p] {c : χ} {f : Unit → Program σ ε χ α}
    {P : α → Prop} (h : p → (f ()).Returns P) : (ensure p c >>= f).Returns P :=
  triple_ensure h fun _ _ _ => trivial

theorem Returns.mono {x : Program σ ε χ α} {P Q : α → Prop} (h : x.Returns P)
    (hPQ : ∀ a, P a → Q a) : x.Returns Q :=
  Triple.mono h (fun _ h => h) (fun a _ => hPQ a) fun _ _ h => h

theorem Returns.bind {x : Program σ ε χ α} {f : α → Program σ ε χ β} {P : α → Prop}
    {Q : β → Prop} (h : x.Returns P) (hf : ∀ a, P a → (f a).Returns Q) : (x >>= f).Returns Q :=
  Triple.bind h fun a s ha => hf a ha s trivial

theorem returns_ite {p : Prop} [Decidable p] {x y : Program σ ε χ α} {P : α → Prop}
    (hx : p → x.Returns P) (hy : ¬ p → y.Returns P) : (if p then x else y).Returns P := by
  split_ifs with h
  · exact hx h
  · exact hy h

/-- A loop returns what each iteration keeps. -/
theorem returns_foldlM {f : β → α → Program σ ε χ β} {I : β → Prop} (l : List α)
    (h : ∀ b, ∀ a ∈ l, I b → (f b a).Returns I) {b : β} (hb : I b) : (l.foldlM f b).Returns I := by
  induction l generalizing b with
  | nil => exact returns_pure hb
  | cons a l ih =>
      rw [List.foldlM_cons]
      exact (h b a List.mem_cons_self hb).bind fun b' hb' =>
        ih (fun b a ha => h b a (List.mem_cons_of_mem _ ha)) hb'

end Program
end ToyDB.Effects
