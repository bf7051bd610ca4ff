import Mathlib.Algebra.BigOperators.Group.List.Basic
import ToyDB.Effects.Program

/-!
# Programs that pay for their events

Every event has a cost, and a run pays for its events out of a budget. A program
that pays from every budget its callers can give bounds the cost of all its runs,
those that fail and those cut after any event included.
-/
namespace ToyDB.Effects

/-- Pays for events out of a budget. -/
def meter {ε M : Type} [AddCommMonoid M] (cost : ε → M) : System M ε where
  silent _ _ := False
  visible g e g' := g = cost e + g'

section Meter
variable {σ ε χ α β M : Type} [AddCommMonoid M] {cost : ε → M} {g g' : M}

/-- What a path takes from the budget. -/
theorem meter_spent {es : List ε} (h : (meter cost).Path g es g') :
    g = (es.map cost).sum + g' := by
  induction h with
  | refl g => simp
  | silent hs _ _ => exact hs.elim
  | visible hv _ ih => rw [hv, ih, List.map_cons, List.sum_cons, add_assoc]

/-- Every run of the program pays for its events, and one that returns satisfies the
postcondition with what is left. -/
abbrev Pays (cost : ε → M) (x : Program σ ε χ α) (Q : α → M → Prop) (g : M) : Prop :=
  wp (meter cost) x Q (fun _ _ => True) g

/-- Every run of the program is free of cost, and one that returns satisfies the
postcondition. -/
def Costless (cost : ε → M) (x : Program σ ε χ α) (P : α → Prop) : Prop :=
  ∀ g, Pays cost x (fun a g' => g' = g ∧ P a) g

variable {x : Program σ ε χ α} {f : α → Program σ ε χ β} {P P' : α → Prop}
  {Q Q' : α → M → Prop}

theorem Pays.bind {R : β → M → Prop} (hx : Pays cost x Q g)
    (hf : ∀ a g', Q a g' → Pays cost (f a) R g') : Pays cost (x >>= f) R g :=
  wp_bind (wp_mono hx hf fun _ _ h => h)

theorem Pays.mono (hx : Pays cost x Q g) (hQ : ∀ a g', Q a g' → Q' a g') : Pays cost x Q' g :=
  wp_mono hx hQ fun _ _ h => h

/-- A call of a program that costs nothing. -/
theorem Costless.then {R : β → M → Prop} (hx : Costless cost x P)
    (hf : ∀ a, P a → Pays cost (f a) R g) : Pays cost (x >>= f) R g :=
  Pays.bind (hx g) fun a _ h => h.1 ▸ hf a h.2

theorem Costless.last (hx : Costless cost x P) (hQ : ∀ a, P a → Q a g) : Pays cost x Q g :=
  Pays.mono (hx g) fun a _ h => h.1 ▸ hQ a h.2

theorem Costless.bind {P : α → Prop} {R : β → Prop} (hx : Costless cost x P)
    (hf : ∀ a, P a → Costless cost (f a) R) : Costless cost (x >>= f) R :=
  fun g => hx.then fun a ha => hf a ha g

/-- A result that a program returns satisfies its postcondition. -/
theorem Costless.result (hx : Costless cost x P) {s : σ} {a : α} (ha : (x s).result = .ok a) :
    P a := by
  obtain ⟨_, _, hr⟩ := hx 0 s
  rw [ha] at hr
  exact hr.2

theorem Costless.mono (hx : Costless cost x P) (h : ∀ a, P a → P' a) : Costless cost x P' :=
  fun _ => hx.last fun a ha => ⟨rfl, h a ha⟩

theorem pays_pure {a : α} (h : Q a g) : Pays cost (pure a : Program σ ε χ α) Q g := wp_pure h

theorem pays_emit {e : ε} {Q : Unit → M → Prop} {k : M} (he : g = cost e + k) (h : Q () k) :
    Pays cost (Program.emit e : Program σ ε χ Unit) Q g :=
  wp_emit he h

theorem pays_ite {p : Prop} [Decidable p] {x y : Program σ ε χ α} (hx : p → Pays cost x Q g)
    (hy : ¬ p → Pays cost y Q g) : Pays cost (if p then x else y) Q g := by
  split_ifs with hp
  · exact hx hp
  · exact hy hp

theorem costless_pure {a : α} (h : P a) : Costless cost (pure a : Program σ ε χ α) P :=
  fun _ => wp_pure ⟨rfl, h⟩

theorem costless_fail {c : χ} : Costless cost (Program.fail c : Program σ ε χ α) P :=
  fun _ => wp_fail trivial

theorem costless_emit {e : ε} (he : cost e = 0) :
    Costless cost (Program.emit e : Program σ ε χ Unit) fun _ => True :=
  fun g => pays_emit (by rw [he, zero_add]) ⟨rfl, trivial⟩

theorem costless_draw {f : σ → α × σ} :
    Costless cost (Program.draw f : Program σ ε χ α) fun _ => True :=
  fun _ => wp_draw fun _ => ⟨rfl, trivial⟩

/-- What is checked holds afterwards. -/
theorem costless_ensure {p : Prop} [Decidable p] {c : χ} :
    Costless cost (Program.ensure p c : Program σ ε χ Unit) fun _ => p := by
  intro g
  rw [Program.ensure]
  exact pays_ite (fun hp => wp_pure ⟨rfl, hp⟩) fun _ => wp_fail trivial

theorem costless_ite {p : Prop} [Decidable p] {x y : Program σ ε χ α}
    (hx : p → Costless cost x P) (hy : ¬ p → Costless cost y P) :
    Costless cost (if p then x else y) P :=
  fun g => pays_ite (fun hp => hx hp g) fun hp => hy hp g

theorem costless_forM {f : α → Program σ ε χ Unit} {l : List α}
    (hf : ∀ a ∈ l, Costless cost (f a) fun _ => True) :
    Costless cost (l.forM f) fun _ => True := by
  induction l with
  | nil => exact costless_pure trivial
  | cons a l ih =>
      change Costless cost (f a >>= fun _ => l.forM f) _
      exact (hf a List.mem_cons_self).bind
        fun _ _ => ih fun b hb => hf b (List.mem_cons_of_mem a hb)

theorem costless_foldlM {f : β → α → Program σ ε χ β} {l : List α} {R : β → Prop}
    (hf : ∀ b a, R b → Costless cost (f b a) R) {b : β} (hb : R b) :
    Costless cost (l.foldlM f b) R := by
  induction l generalizing b with
  | nil => exact costless_pure hb
  | cons a l ih =>
      rw [List.foldlM_cons]
      exact (hf b a hb).bind fun b' hb' => ih hb'

end Meter
end ToyDB.Effects
