import Mathlib.Tactic.Common

/-!
# Programs with events, and reasoning about them through a transition system

A program works on a state, such as a supply of random numbers or a storage
engine, emits events and may stop with a failure. A transition system over
specification states says which events are allowed and how they move the
specification; it may also move silently. `wp` states that every run of a program,
whatever its state, is a path of the system, and that the final specification state
satisfies a postcondition. Since a path can be cut after any event, a proof of `wp`
also covers a run stopped in the middle.
-/
namespace ToyDB.Effects

/-- The end of a run: its result or the failure that stopped it, the final state, and
the emitted events in order. -/
structure Outcome (σ ε χ α : Type) where
  result : Except χ α
  state : σ
  events : List ε

def Program (σ ε χ α : Type) := σ → Outcome σ ε χ α

namespace Program
variable {σ ε χ α β : Type}

protected def pure (a : α) : Program σ ε χ α := fun s => ⟨.ok a, s, []⟩

protected def bind (x : Program σ ε χ α) (f : α → Program σ ε χ β) : Program σ ε χ β :=
  fun s =>
    match x s with
    | ⟨.error c, s', es⟩ => ⟨.error c, s', es⟩
    | ⟨.ok a, s', es⟩ =>
        let y := f a s'
        ⟨y.result, y.state, es ++ y.events⟩

instance : Monad (Program σ ε χ) where
  pure := Program.pure
  bind := Program.bind

theorem id_map (x : Program σ ε χ α) : id <$> x = x := by
  funext s
  change Program.bind x (fun a => Program.pure a) s = x s
  unfold Program.bind Program.pure
  cases hx : x s with
  | mk r s' es => cases r <;> simp

theorem bind_assoc {γ : Type} (x : Program σ ε χ α) (f : α → Program σ ε χ β)
    (g : β → Program σ ε χ γ) : x >>= f >>= g = x >>= fun a => f a >>= g := by
  funext s
  change Program.bind (Program.bind x f) g s = Program.bind x (fun a => Program.bind (f a) g) s
  unfold Program.bind
  cases hx : x s with
  | mk r s' es =>
      cases r with
      | error c => rfl
      | ok a =>
          simp only
          cases hf : f a s' with
          | mk r' s'' es' => cases r' <;> simp

instance : LawfulMonad (Program σ ε χ) :=
  LawfulMonad.mk' _ id_map (fun a f => funext fun s => by
    change Program.bind (Program.pure a) f s = f a s
    simp [Program.bind, Program.pure]) bind_assoc

def emit (e : ε) : Program σ ε χ Unit := fun s => ⟨.ok (), s, [e]⟩

def fail (c : χ) : Program σ ε χ α := fun s => ⟨.error c, s, []⟩

/-- Stops with the given failure unless the condition holds. -/
def ensure (p : Prop) [Decidable p] (c : χ) : Program σ ε χ Unit :=
  if p then Program.pure () else fail c

theorem ensure_bind {p : Prop} [Decidable p] (hp : p) (c : χ) (f : Unit → Program σ ε χ α) :
    ensure p c >>= f = f () := by
  funext s
  change Program.bind (ensure p c) f s = f () s
  simp [ensure, hp, Program.bind, Program.pure]

theorem ensure_bind_not {p : Prop} [Decidable p] (hp : ¬ p) (c : χ)
    (f : Unit → Program σ ε χ α) : ensure p c >>= f = fail c := by
  funext s
  change Program.bind (ensure p c) f s = fail c s
  simp [ensure, hp, Program.bind, fail]

/-- Takes a value off the state. -/
def draw (f : σ → α × σ) : Program σ ε χ α := fun s => ⟨.ok (f s).1, (f s).2, []⟩

/-- The program never returns, whatever the state. -/
def Fails (x : Program σ ε χ α) : Prop := ∀ s, ∃ c, (x s).result = .error c

theorem Fails.bind {x : Program σ ε χ α} (h : x.Fails) (f : α → Program σ ε χ β) :
    Fails (x >>= f) := by
  intro s
  obtain ⟨c, hc⟩ := h s
  refine ⟨c, ?_⟩
  change (Program.bind x f s).result = .error c
  cases hx : x s with
  | mk r s' es =>
      rw [hx] at hc
      subst hc
      simp [Program.bind, hx]

theorem Fails.after {f : α → Program σ ε χ β} (h : ∀ a, (f a).Fails) (x : Program σ ε χ α) :
    Fails (x >>= f) := by
  intro s
  cases hx : x s with
  | mk r s' es =>
      cases r with
      | error c => exact ⟨c, by change (Program.bind x f s).result = _; simp [Program.bind, hx]⟩
      | ok a =>
          obtain ⟨c, hc⟩ := h a s'
          exact ⟨c, by change (Program.bind x f s).result = _; simp [Program.bind, hx, hc]⟩

theorem fails_ensure {p : Prop} [Decidable p] {c : χ} (h : ¬ p) :
    (ensure p c : Program σ ε χ Unit).Fails := by
  intro s
  exact ⟨c, by rw [ensure, if_neg h]; rfl⟩

end Program

/-- A specification: states of type `G` that move silently or under an event. -/
structure System (G ε : Type) where
  silent : G → G → Prop
  visible : G → ε → G → Prop

namespace System
variable {G ε : Type} (S : System G ε)

/-- The paths of a system, labelled by their visible events. -/
inductive Path : G → List ε → G → Prop where
  | refl (g : G) : Path g [] g
  | silent {g g₁ g₂ : G} {es : List ε} : S.silent g g₁ → Path g₁ es g₂ → Path g es g₂
  | visible {g g₁ g₂ : G} {e : ε} {es : List ε} :
      S.visible g e g₁ → Path g₁ es g₂ → Path g (e :: es) g₂

variable {S}

theorem Path.append {g g₁ g₂ : G} {es fs : List ε} (h : S.Path g es g₁)
    (h' : S.Path g₁ fs g₂) : S.Path g (es ++ fs) g₂ := by
  induction h with
  | refl g => exact h'
  | silent hs _ ih => exact .silent hs (ih h')
  | visible hv _ ih => exact .visible hv (ih h')

/-- A path can be cut between any two of its events. -/
theorem Path.split {g g₂ : G} {es : List ε} (h : S.Path g es g₂) :
    ∀ {fs gs : List ε}, es = fs ++ gs → ∃ g₁, S.Path g fs g₁ ∧ S.Path g₁ gs g₂ := by
  induction h with
  | refl g =>
      intro fs gs he
      obtain ⟨rfl, rfl⟩ := List.append_eq_nil_iff.mp he.symm
      exact ⟨g, .refl g, .refl g⟩
  | silent hs _ ih =>
      intro fs gs he
      obtain ⟨g₁, h₁, h₂⟩ := ih he
      exact ⟨g₁, .silent hs h₁, h₂⟩
  | @visible g g₁ g₂ e es hv hp ih =>
      intro fs gs he
      cases fs with
      | nil => exact ⟨g, .refl g, by rw [← List.nil_append gs, ← he]; exact .visible hv hp⟩
      | cons f fs =>
          obtain ⟨rfl, rfl⟩ := List.cons.inj he
          obtain ⟨m, h₁, h₂⟩ := ih rfl
          exact ⟨m, .visible hv h₁, h₂⟩

/-- A relation that is reflexive, transitive and respected by every step relates
the two ends of a path. -/
theorem Path.relates {g g' : G} {es : List ε} (h : S.Path g es g') {R : G → G → Prop}
    (hr : ∀ g, R g g) (ht : ∀ {a b c}, R a b → R b c → R a c)
    (hs : ∀ g g', S.silent g g' → R g g') (hv : ∀ g e g', S.visible g e g' → R g g') :
    R g g' := by
  induction h with
  | refl g => exact hr g
  | silent h₁ _ ih => exact ht (hs _ _ h₁) ih
  | visible h₁ _ ih => exact ht (hv _ _ _ h₁) ih

/-- The step at which an event of a path happened. -/
theorem Path.at {g g' : G} {fs gs : List ε} {e : ε} (h : S.Path g (fs ++ e :: gs) g') :
    ∃ g₁ g₂, S.Path g fs g₁ ∧ S.visible g₁ e g₂ ∧ S.Path g₂ gs g' := by
  generalize hes : fs ++ e :: gs = es at h
  induction h generalizing fs with
  | refl g => exact absurd hes (by simp)
  | silent hs _ ih =>
      obtain ⟨g₁, g₂, h₁, h₂, h₃⟩ := ih hes
      exact ⟨g₁, g₂, .silent hs h₁, h₂, h₃⟩
  | @visible g m g₂ f es hv hp ih =>
      cases fs with
      | nil =>
          obtain ⟨rfl, rfl⟩ := List.cons.inj hes
          exact ⟨g, m, .refl g, hv, hp⟩
      | cons f' fs =>
          obtain ⟨hf, htail⟩ := List.cons.inj hes
          obtain ⟨a, b, h₁, h₂, h₃⟩ := ih htail
          exact ⟨a, b, hf ▸ .visible hv h₁, h₂, h₃⟩

end System

section WP
variable {σ ε χ α β G : Type} {S : System G ε}

/-- Every run of the program follows a path of the system from `g` to a state
that satisfies the postcondition for its result. -/
def wp (S : System G ε) (x : Program σ ε χ α) (Q : α → G → Prop) (E : χ → G → Prop)
    (g : G) : Prop :=
  ∀ s, ∃ g', S.Path g (x s).events g' ∧
    match (x s).result with
    | .ok a => Q a g'
    | .error c => E c g'

variable {Q Q' : α → G → Prop} {E E' : χ → G → Prop} {g : G}

theorem wp_pure {a : α} (h : Q a g) : wp S (pure a : Program σ ε χ α) Q E g :=
  fun _ => ⟨g, .refl g, h⟩

theorem wp_fail {c : χ} (h : E c g) : wp S (Program.fail c : Program σ ε χ α) Q E g :=
  fun _ => ⟨g, .refl g, h⟩

theorem wp_mono {x : Program σ ε χ α} (h : wp S x Q E g) (hQ : ∀ a g', Q a g' → Q' a g')
    (hE : ∀ c g', E c g' → E' c g') : wp S x Q' E' g := by
  intro s
  obtain ⟨g', hp, hr⟩ := h s
  refine ⟨g', hp, ?_⟩
  cases he : (x s).result with
  | ok a => rw [he] at hr; exact hQ a g' hr
  | error c => rw [he] at hr; exact hE c g' hr

theorem wp_bind {x : Program σ ε χ α} {f : α → Program σ ε χ β} {Q : β → G → Prop}
    (h : wp S x (fun a => wp S (f a) Q E) E g) : wp S (x >>= f) Q E g := by
  intro s
  obtain ⟨g₁, hp, hr⟩ := h s
  change ∃ g', S.Path g (Program.bind x f s).events g' ∧ _
  cases hx : x s with
  | mk r s' es =>
      rw [hx] at hp hr
      cases r with
      | error c => exact ⟨g₁, by simpa [Program.bind, hx] using hp, by
          change match (Program.bind x f s).result with | .ok a => Q a g₁ | .error c => E c g₁
          simpa [Program.bind, hx] using hr⟩
      | ok a =>
          obtain ⟨g₂, hp', hr'⟩ := hr s'
          refine ⟨g₂, by simpa [Program.bind, hx] using hp.append hp', ?_⟩
          change match (Program.bind x f s).result with | .ok a => Q a g₂ | .error c => E c g₂
          simpa [Program.bind, hx] using hr'

theorem wp_emit {e : ε} {Q : Unit → G → Prop} {k : G} (hv : S.visible g e k) (h : Q () k) :
    wp S (Program.emit e : Program σ ε χ Unit) Q E g :=
  fun _ => ⟨k, .visible hv (.refl k), h⟩

theorem wp_silent {x : Program σ ε χ α} {k : G} (hs : S.silent g k) (h : wp S x Q E k) :
    wp S x Q E g := by
  intro s
  obtain ⟨g₂, hp, hr⟩ := h s
  exact ⟨g₂, .silent hs hp, hr⟩

theorem wp_draw {f : σ → α × σ} (h : ∀ a, Q a g) :
    wp S (Program.draw f : Program σ ε χ α) Q E g :=
  fun _ => ⟨g, .refl g, h _⟩

theorem wp_ensure {p : Prop} [Decidable p] {c : χ} {Q : Unit → G → Prop} (hp : p)
    (h : Q () g) : wp S (Program.ensure p c : Program σ ε χ Unit) Q E g := by
  rw [Program.ensure, if_pos hp]
  exact wp_pure h

/-- A loop over a list keeps an invariant that may mention the remaining items. -/
theorem wp_foldlM {f : β → α → Program σ ε χ β} {I : List α → β → G → Prop}
    (hstep : ∀ a l b g, I (a :: l) b g → wp S (f b a) (I l) E g) :
    ∀ {l : List α} {b : β} {g : G}, I l b g → wp S (l.foldlM f b) (I []) E g := by
  intro l
  induction l with
  | nil => intro b g h; exact wp_pure h
  | cons a l ih =>
      intro b g h
      rw [List.foldlM_cons]
      exact wp_bind (wp_mono (hstep a l b g h) (fun b g h => ih h) (fun _ _ h => h))

/-- A run cut after any number of its events is still a path of the system. -/
theorem wp.cut {x : Program σ ε χ α} (h : wp S x Q E g) (s : σ) (k : ℕ) :
    ∃ g', S.Path g ((x s).events.take k) g' := by
  obtain ⟨g', hp, _⟩ := h s
  obtain ⟨m, hm, _⟩ := hp.split (List.take_append_drop k (x s).events).symm
  exact ⟨m, hm⟩

end WP
end ToyDB.Effects
