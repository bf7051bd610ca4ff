import ToyDB.Collections.OrderedMap
import ToyDB.Effects.Program

/-!
# Programs on a key/value engine

A storage engine is an ordered map, and the events of a program on it are its set and
delete operations. A crash keeps any first operations of a program and loses the
others. `Yields` states what a program returns and which operations it performs.
-/
namespace ToyDB.Storage
open ToyDB.Collections ToyDB.Effects

/-- A write to the engine. -/
inductive Op (K V : Type) where
  | set (key : K) (value : V)
  | delete (key : K)
  deriving DecidableEq

section Engine
variable {K V χ α β : Type} [LinearOrder K]

def Op.apply (m : OrderedMap K V) : Op K V → OrderedMap K V
  | set key value => m.insert key value
  | delete key => m.erase key

/-- The engine after the operations. -/
def replay (m : OrderedMap K V) (ops : List (Op K V)) : OrderedMap K V := ops.foldl Op.apply m

@[simp] theorem replay_nil (m : OrderedMap K V) : replay m [] = m := rfl

@[simp] theorem replay_cons (m : OrderedMap K V) (op : Op K V) (ops : List (Op K V)) :
    replay m (op :: ops) = replay (op.apply m) ops := rfl

@[simp] theorem replay_append (m : OrderedMap K V) (ops ops' : List (Op K V)) :
    replay m (ops ++ ops') = replay (replay m ops) ops' := List.foldl_append

/-- Operations on other keys leave a key alone. -/
theorem replay_get {m : OrderedMap K V} {ops : List (Op K V)} {k : K}
    (h : ∀ op ∈ ops, match op with | .set key _ => key ≠ k | .delete key => key ≠ k) :
    (replay m ops).get k = m.get k := by
  induction ops generalizing m with
  | nil => rfl
  | cons op ops ih =>
      rw [replay_cons, ih fun op' h' => h op' (List.mem_cons_of_mem op h')]
      have := h op List.mem_cons_self
      cases op with
      | set key value => exact OrderedMap.get_insert_of_ne m value (Ne.symm this)
      | delete key => exact OrderedMap.get_erase_of_ne m (Ne.symm this)

/-- Deleting keys. -/
theorem replay_deletes_get {ι : Type} (m : OrderedMap K V) (f : ι → K) (l : List ι) (k : K) :
    (replay m (l.map fun i => .delete (f i))).get k = if k ∈ l.map f then none else m.get k := by
  induction l generalizing m with
  | nil => rfl
  | cons i l ih =>
      rw [List.map_cons, replay_cons, ih, Op.apply, OrderedMap.get_erase, List.map_cons]
      by_cases hk : k = f i <;> simp [hk]

/-- A program on an engine. -/
abbrev Store (K V χ : Type) [LinearOrder K] (α : Type) := Program (OrderedMap K V) (Op K V) χ α

namespace Store

def get (key : K) : Store K V χ (Option V) := Program.draw fun m => (m.get key, m)

/-- The entries whose keys satisfy the predicate, in key order. -/
def scan (p : K → Bool) : Store K V χ (List (K × V)) := Program.draw fun m => (m.scan p, m)

def set (key : K) (value : V) : Store K V χ Unit :=
  fun m => ⟨.ok (), m.insert key value, [.set key value]⟩

def delete (key : K) : Store K V χ Unit := fun m => ⟨.ok (), m.erase key, [.delete key]⟩

/-- The engine that a crash after `k` operations of the program leaves behind. -/
def crash (x : Store K V χ α) (m : OrderedMap K V) (k : ℕ) : OrderedMap K V :=
  replay m ((x m).events.take k)

end Store

/-! ## What programs do -/

/-- Run on the engine, the program performs operations that account for the engine it
leaves behind, and together with its result they satisfy the postcondition. -/
def Yields (x : Store K V χ α) (m : OrderedMap K V)
    (Q : Except χ α → List (Op K V) → Prop) : Prop :=
  (x m).state = replay m (x m).events ∧ Q (x m).result (x m).events

variable {m : OrderedMap K V} {x : Store K V χ α} {f : α → Store K V χ β}

theorem Yields.mono {Q Q' : Except χ α → List (Op K V) → Prop} (h : Yields x m Q)
    (hQ : ∀ r ops, Q r ops → Q' r ops) : Yields x m Q' :=
  ⟨h.1, hQ _ _ h.2⟩

theorem yields_pure {a : α} {Q : Except χ α → List (Op K V) → Prop} (h : Q (.ok a) []) :
    Yields (pure a : Store K V χ α) m Q := ⟨rfl, h⟩

theorem yields_fail {c : χ} {Q : Except χ α → List (Op K V) → Prop} (h : Q (.error c) []) :
    Yields (Program.fail c : Store K V χ α) m Q := ⟨rfl, h⟩

theorem yields_bind {Q : Except χ β → List (Op K V) → Prop}
    (h : Yields x m fun r ops =>
      match r with
      | .ok a => Yields (f a) (replay m ops) fun r' ops' => Q r' (ops ++ ops')
      | .error c => Q (.error c) ops) : Yields (x >>= f) m Q := by
  obtain ⟨hs, hr⟩ := h
  change (Program.bind x f m).state = replay m (Program.bind x f m).events ∧
    Q (Program.bind x f m).result (Program.bind x f m).events
  unfold Program.bind
  cases hx : x m with
  | mk r s es =>
      rw [hx] at hs hr
      simp only at hs hr
      cases r with
      | error c => exact ⟨hs, hr⟩
      | ok a =>
          rw [← hs] at hr
          obtain ⟨hs', hr'⟩ := hr
          exact ⟨by rw [hs', hs, replay_append], hr'⟩

/-- A call of a program whose result and operations are known. -/
theorem Yields.then {a : α} {ops : List (Op K V)} {Q : Except χ β → List (Op K V) → Prop}
    (hx : Yields x m fun r ops' => r = .ok a ∧ ops' = ops)
    (hf : Yields (f a) (replay m ops) fun r' ops' => Q r' (ops ++ ops')) :
    Yields (x >>= f) m Q := by
  refine yields_bind (hx.mono ?_)
  rintro _ _ ⟨rfl, rfl⟩
  exact hf

/-- A call of a program that only reads. -/
theorem Yields.read {a : α} {Q : Except χ β → List (Op K V) → Prop}
    (hx : Yields x m fun r ops => r = .ok a ∧ ops = []) (hf : Yields (f a) m Q) :
    Yields (x >>= f) m Q :=
  hx.then hf

theorem yields_get {k : K} : Yields (Store.get k : Store K V χ (Option V)) m fun r ops =>
    r = .ok (m.get k) ∧ ops = [] := ⟨rfl, rfl, rfl⟩

theorem yields_scan {p : K → Bool} : Yields (Store.scan p : Store K V χ (List (K × V))) m
    fun r ops => r = .ok (m.scan p) ∧ ops = [] := ⟨rfl, rfl, rfl⟩

theorem yields_set {k : K} {v : V} : Yields (Store.set k v : Store K V χ Unit) m fun r ops =>
    r = .ok () ∧ ops = [.set k v] := ⟨rfl, rfl, rfl⟩

theorem yields_delete {k : K} : Yields (Store.delete k : Store K V χ Unit) m fun r ops =>
    r = .ok () ∧ ops = [.delete k] := ⟨rfl, rfl, rfl⟩

/-- A check: what holds if it passes, and the failure if it does not. -/
theorem yields_ensure {p : Prop} [Decidable p] {c : χ} {f : Unit → Store K V χ β}
    {Q : Except χ β → List (Op K V) → Prop} (hp : p → Yields (f ()) m Q)
    (hn : ¬ p → Q (.error c) []) : Yields (Program.ensure p c >>= f) m Q := by
  refine yields_bind ?_
  unfold Program.ensure
  split_ifs with h
  · exact yields_pure (hp h)
  · exact yields_fail (hn h)

/-- A loop whose rounds perform one operation each. -/
theorem yields_forM {γ : Type} {f : γ → Store K V χ Unit} {op : γ → Op K V}
    (hf : ∀ c m, Yields (f c) m fun r ops => r = .ok () ∧ ops = [op c]) {l : List γ} :
    Yields (l.forM f) m fun r ops => r = .ok () ∧ ops = l.map op := by
  induction l generalizing m with
  | nil => exact yields_pure ⟨rfl, rfl⟩
  | cons c l ih =>
      change Yields (f c >>= fun _ => l.forM f) m _
      refine (hf c m).then (ih.mono ?_)
      rintro _ _ ⟨rfl, rfl⟩
      exact ⟨rfl, rfl⟩

end Engine
end ToyDB.Storage
