import ToyDB.Sql.Planner.Folding
import ToyDB.Sql.Planner.Lookups
import ToyDB.Sql.Planner.Scoping

/-!
# Passes over a plan

A pass rewrites a node before it descends into its sources. What the rewriting of a node
keeps, the pass keeps, if it only depends on the node and on what the rewriting keeps of the
sources. Constant folding, filter pushdown and index lookups keep plans well scoped.
-/
namespace ToyDB.Sql

namespace Node

/-- The same node, with sources that are related. -/
inductive Like (R : Node → Node → Prop) : Node → Node → Prop
  | leaf {node : Node} (h : node.sources = []) : Like R node node
  | aggregate {source source' : Node} (h : R source source') (groupBy : List Expression)
      (aggregates : List Aggregate) :
      Like R (.aggregate source groupBy aggregates) (.aggregate source' groupBy aggregates)
  | filter {source source' : Node} (h : R source source') (predicate : Expression) :
      Like R (.filter source predicate) (.filter source' predicate)
  | hashJoin {left left' right right' : Node} (hl : R left left') (hr : R right right')
      (leftColumn rightColumn : ℕ) (outer : Bool) :
      Like R (.hashJoin left leftColumn right rightColumn outer)
        (.hashJoin left' leftColumn right' rightColumn outer)
  | limit {source source' : Node} (h : R source source') (n : ℕ) :
      Like R (.limit source n) (.limit source' n)
  | nestedLoopJoin {left left' right right' : Node} (hl : R left left') (hr : R right right')
      (predicate : Option Expression) (outer : Bool) :
      Like R (.nestedLoopJoin left right predicate outer)
        (.nestedLoopJoin left' right' predicate outer)
  | offset {source source' : Node} (h : R source source') (n : ℕ) :
      Like R (.offset source n) (.offset source' n)
  | order {source source' : Node} (h : R source source') (key : List (Expression × Direction)) :
      Like R (.order source key) (.order source' key)
  | projection {source source' : Node} (h : R source source') (expressions : List Expression)
      (aliases : List Label) :
      Like R (.projection source expressions aliases) (.projection source' expressions aliases)
  | remap {source source' : Node} (h : R source source') (targets : List (Option ℕ)) :
      Like R (.remap source targets) (.remap source' targets)

variable {R R' : Node → Node → Prop} {node node' : Node}

theorem Like.sources (h : Like R node node') : List.Forall₂ R node.sources node'.sources := by
  cases h with
  | leaf h =>
      rw [h]
      exact .nil
  | hashJoin hl hr | nestedLoopJoin hl hr => exact .cons hl (.cons hr .nil)
  | aggregate h | filter h | limit h | offset h | order h | projection h | remap h =>
      exact .cons h .nil

/-- What a source stands in for. -/
theorem Like.exists_source (h : Like R node node') {source' : Node}
    (hsource' : source' ∈ node'.sources) : ∃ source ∈ node.sources, R source source' :=
  exists_of_forall₂ h.sources hsource'

/-- What stands in for a source. -/
theorem Like.exists_standIn (h : Like R node node') {source : Node}
    (hsource : source ∈ node.sources) : ∃ source' ∈ node'.sources, R source source' :=
  exists_of_forall₂ h.sources.flip hsource

theorem Like.imp (h : Like R node node')
    (himp : ∀ source ∈ node.sources, ∀ source', R source source' → R' source source') :
    Like R' node node' := by
  cases h with
  | leaf h => exact .leaf h
  | hashJoin hl hr =>
      exact .hashJoin (himp _ (by simp [Node.sources]) _ hl) (himp _ (by simp [Node.sources]) _ hr)
        ..
  | nestedLoopJoin hl hr =>
      exact .nestedLoopJoin (himp _ (by simp [Node.sources]) _ hl)
        (himp _ (by simp [Node.sources]) _ hr) ..
  | aggregate h => exact .aggregate (himp _ (by simp [Node.sources]) _ h) ..
  | filter h => exact .filter (himp _ (by simp [Node.sources]) _ h) ..
  | limit h => exact .limit (himp _ (by simp [Node.sources]) _ h) ..
  | offset h => exact .offset (himp _ (by simp [Node.sources]) _ h) ..
  | order h => exact .order (himp _ (by simp [Node.sources]) _ h) ..
  | projection h => exact .projection (himp _ (by simp [Node.sources]) _ h) ..
  | remap h => exact .remap (himp _ (by simp [Node.sources]) _ h) ..

/-- Mapping the sources relates them to their results. -/
theorem like_of_mapSourcesM {f : Node → Except Failure Node}
    (h : node.mapSourcesM f = .ok node') :
    Like (fun source source' => f source = .ok source') node node' := by
  cases node with
  | indexLookup | keyLookup | nothing | scan | values =>
      obtain rfl := Except.ok.inj h
      exact .leaf rfl
  | hashJoin left leftColumn right rightColumn outer =>
      obtain ⟨left', hl, h⟩ := bind_eq_ok.mp h
      obtain ⟨right', hr, h⟩ := bind_eq_ok.mp h
      obtain rfl := Except.ok.inj h
      exact .hashJoin hl hr ..
  | nestedLoopJoin left right predicate outer =>
      obtain ⟨left', hl, h⟩ := bind_eq_ok.mp h
      obtain ⟨right', hr, h⟩ := bind_eq_ok.mp h
      obtain rfl := Except.ok.inj h
      exact .nestedLoopJoin hl hr ..
  | aggregate source groupBy aggregates =>
      obtain ⟨source', hs, h⟩ := bind_eq_ok.mp h
      obtain rfl := Except.ok.inj h
      exact .aggregate hs ..
  | filter source predicate =>
      obtain ⟨source', hs, h⟩ := bind_eq_ok.mp h
      obtain rfl := Except.ok.inj h
      exact .filter hs ..
  | limit source n =>
      obtain ⟨source', hs, h⟩ := bind_eq_ok.mp h
      obtain rfl := Except.ok.inj h
      exact .limit hs ..
  | offset source n =>
      obtain ⟨source', hs, h⟩ := bind_eq_ok.mp h
      obtain rfl := Except.ok.inj h
      exact .offset hs ..
  | order source key =>
      obtain ⟨source', hs, h⟩ := bind_eq_ok.mp h
      obtain rfl := Except.ok.inj h
      exact .order hs ..
  | projection source expressions aliases =>
      obtain ⟨source', hs, h⟩ := bind_eq_ok.mp h
      obtain rfl := Except.ok.inj h
      exact .projection hs ..
  | remap source targets =>
      obtain ⟨source', hs, h⟩ := bind_eq_ok.mp h
      obtain rfl := Except.ok.inj h
      exact .remap hs ..

/-- A relation of a node to what may stand in for it as a source. -/
structure StandIn (R : Node → Node → Prop) : Prop where
  refl : ∀ node, R node node
  trans : ∀ node₁ node₂ node₃, R node₁ node₂ → R node₂ node₃ → R node₁ node₃
  like : ∀ node node', Like R node node' → R node node'

/-- A property of a node that only depends on what stands in for its sources. -/
def Local (R : Node → Node → Prop) (P : Node → Prop) : Prop :=
  ∀ node node', Like R node node' → P node → P node'

/-- A pass keeps what the rewriting of a node keeps. -/
theorem all_transformM {P : Node → Prop} (hR : StandIn R) (hlocal : Local R P)
    {f : Node → Except Failure Node}
    (hf : ∀ node node', node.All P → f node = .ok node' → node'.All P ∧ R node node')
    (levels : ℕ) : ∀ node node', node.All P → transformM f levels node = .ok node' →
      node'.All P ∧ R node node' := by
  induction levels with
  | zero =>
      intro node node' hnode h
      obtain rfl := Except.ok.inj h
      exact ⟨hnode, hR.refl _⟩
  | succ levels ih =>
      intro node node' hnode h
      obtain ⟨middle, hmiddle, h⟩ := bind_eq_ok.mp h
      obtain ⟨hall, hmiddle⟩ := hf node middle hnode hmiddle
      obtain ⟨htop, hsources⟩ := all_iff.mp hall
      have hlike : Like (fun source source' => source'.All P ∧ R source source') middle node' :=
        (like_of_mapSourcesM h).imp fun source hsource source' hsource' =>
          ih source source' (hsources source hsource) hsource'
      have hstands : Like R middle node' := hlike.imp fun _ _ _ h => h.2
      refine ⟨all_iff.mpr ⟨hlocal _ _ hstands htop, ?_⟩, hR.trans _ _ _ hmiddle (hR.like _ _ hstands)⟩
      intro source' hsource'
      obtain ⟨source, -, hsource, -⟩ := hlike.exists_source hsource'
      exact hsource

theorem mapSourcesM_total {f : Node → Except Failure Node}
    (h : ∀ source ∈ node.sources, ∃ source', f source = .ok source') :
    ∃ node', node.mapSourcesM f = .ok node' := by
  cases node with
  | indexLookup | keyLookup | nothing | scan | values => exact ⟨_, rfl⟩
  | hashJoin left leftColumn right rightColumn outer =>
      obtain ⟨left', hl⟩ := h left (by simp [Node.sources])
      obtain ⟨right', hr⟩ := h right (by simp [Node.sources])
      exact ⟨.hashJoin left' leftColumn right' rightColumn outer,
        bind_eq_ok.mpr ⟨left', hl, bind_eq_ok.mpr ⟨right', hr, rfl⟩⟩⟩
  | nestedLoopJoin left right predicate outer =>
      obtain ⟨left', hl⟩ := h left (by simp [Node.sources])
      obtain ⟨right', hr⟩ := h right (by simp [Node.sources])
      exact ⟨.nestedLoopJoin left' right' predicate outer,
        bind_eq_ok.mpr ⟨left', hl, bind_eq_ok.mpr ⟨right', hr, rfl⟩⟩⟩
  | aggregate source groupBy aggregates =>
      obtain ⟨source', hs⟩ := h source (by simp [Node.sources])
      exact ⟨.aggregate source' groupBy aggregates, bind_eq_ok.mpr ⟨source', hs, rfl⟩⟩
  | filter source predicate =>
      obtain ⟨source', hs⟩ := h source (by simp [Node.sources])
      exact ⟨.filter source' predicate, bind_eq_ok.mpr ⟨source', hs, rfl⟩⟩
  | limit source n =>
      obtain ⟨source', hs⟩ := h source (by simp [Node.sources])
      exact ⟨.limit source' n, bind_eq_ok.mpr ⟨source', hs, rfl⟩⟩
  | offset source n =>
      obtain ⟨source', hs⟩ := h source (by simp [Node.sources])
      exact ⟨.offset source' n, bind_eq_ok.mpr ⟨source', hs, rfl⟩⟩
  | order source key =>
      obtain ⟨source', hs⟩ := h source (by simp [Node.sources])
      exact ⟨.order source' key, bind_eq_ok.mpr ⟨source', hs, rfl⟩⟩
  | projection source expressions aliases =>
      obtain ⟨source', hs⟩ := h source (by simp [Node.sources])
      exact ⟨.projection source' expressions aliases, bind_eq_ok.mpr ⟨source', hs, rfl⟩⟩
  | remap source targets =>
      obtain ⟨source', hs⟩ := h source (by simp [Node.sources])
      exact ⟨.remap source' targets, bind_eq_ok.mpr ⟨source', hs, rfl⟩⟩

/-- A pass succeeds where the rewriting of each node does. -/
theorem transformM_total {P : Node → Prop} {f : Node → Except Failure Node}
    (hf : ∀ node, node.All P → ∃ node', f node = .ok node' ∧ node'.All P) (levels : ℕ) :
    ∀ node, node.All P → ∃ node', transformM f levels node = .ok node' := by
  induction levels with
  | zero => exact fun node _ => ⟨node, rfl⟩
  | succ levels ih =>
      intro node h
      obtain ⟨middle, hmiddle, hall⟩ := hf node h
      obtain ⟨node', hnode'⟩ := mapSourcesM_total fun source hsource =>
        ih source ((all_iff.mp hall).2 source hsource)
      exact ⟨node', bind_eq_ok.mpr ⟨middle, hmiddle, hnode'⟩⟩

/-- What a pass keeps of a node. -/
structure Face (node node' : Node) : Prop where
  columns : node'.columns = node.columns
  isRemap : node'.isRemap = node.isRemap

theorem Face.refl (node : Node) : Face node node := ⟨rfl, rfl⟩

theorem Face.trans {node₁ node₂ node₃ : Node} (h : Face node₁ node₂) (h' : Face node₂ node₃) :
    Face node₁ node₃ :=
  ⟨h'.columns.trans h.columns, h'.isRemap.trans h.isRemap⟩

theorem Like.face (h : Like Face node node') : Face node node' := by
  cases h with
  | leaf h => exact .refl _
  | hashJoin hl hr | nestedLoopJoin hl hr =>
      exact ⟨by simp only [Node.columns, hl.columns, hr.columns], rfl⟩
  | filter h | limit h | offset h | order h => exact ⟨h.columns, rfl⟩
  | aggregate | projection | remap => exact ⟨rfl, rfl⟩

theorem standIn_face : StandIn Face := ⟨Face.refl, fun _ _ _ => Face.trans, fun _ _ => Like.face⟩

/-- What the passes before filter pushdown keep of a node. -/
structure TakingFace (node node' : Node) : Prop extends Face node node' where
  takes : FilterPushdown.takes node' = FilterPushdown.takes node

theorem standIn_takingFace : StandIn TakingFace := by
  refine ⟨fun node => ⟨.refl node, rfl⟩,
    fun _ _ _ h h' => ⟨h.toFace.trans h'.toFace, h'.takes.trans h.takes⟩, ?_⟩
  intro node node' hlike
  refine ⟨(hlike.imp fun _ _ _ h => h.toFace).face, ?_⟩
  cases hlike <;> rfl

theorem mapSourcesM_ok (f : Node → Node) (node : Node) :
    node.mapSourcesM (fun source => .ok (f source)) = .ok (node.mapSources f) := by
  cases node <;> rfl

theorem transformM_ok (f : Node → Node) (levels : ℕ) (node : Node) :
    node.transformM (fun node => .ok (f node)) levels = .ok (node.transform f levels) := by
  induction levels generalizing node with
  | zero => rfl
  | succ levels ih =>
      have hih : (transformM (fun node => .ok (f node)) levels) =
          fun node => .ok (transform f levels node) := funext ih
      show mapSourcesM _ (f node) = .ok (mapSources _ (f node))
      rw [hih, mapSourcesM_ok]

/-! ## Scopes -/

theorem local_scoped : Local Face Scoped := by
  intro node node' hlike h
  cases hlike with
  | leaf => exact h
  | limit | offset => trivial
  | aggregate hs | filter hs | order hs | projection hs | remap hs =>
      simpa only [Scoped, hs.columns] using h
  | hashJoin hl hr | nestedLoopJoin hl hr =>
      simpa only [Scoped, hl.columns, hr.columns] using h

end Node

theorem local_pushable : Node.Local Node.TakingFace Pushable := by
  intro node node' hlike h
  refine ⟨Node.local_scoped _ _ (hlike.imp fun _ _ _ h => h.toFace) h.1, ?_⟩
  obtain ⟨-, h⟩ := h
  cases hlike with
  | nestedLoopJoin hl hr =>
      simpa only [FilterPushdown.Takes, hl.takes, hl.isRemap, hr.takes, hr.isRemap] using h
  | leaf => exact h
  | aggregate | filter | hashJoin | limit | offset | order | projection | remap => trivial

/-! ## Constant folding -/

namespace ConstantFolding
open Expression
variable {fn : Builtins} {n : ℕ}

theorem below_fold {e e' : Expression} (h : e.Below n) (hfold : fold fn e = .ok e') :
    e'.Below n := by
  unfold fold at hfold
  split_ifs at hfold
  · cases hv : e.evaluate fn none with
    | error err =>
        rw [hv] at hfold
        cases hfold
    | ok v =>
        rw [hv] at hfold
        obtain rfl := Except.ok.inj hfold
        exact below_constant v
  · obtain rfl := Except.ok.inj hfold
    split
    · exact below_constant _
    · exact below_constant _
    · exact (below_binary.mp h).2
    · exact (below_binary.mp h).1
    · exact below_constant _
    · exact below_constant _
    · exact (below_binary.mp h).2
    · exact (below_binary.mp h).1
    · exact h

theorem below_foldAll {e : Expression} : ∀ {e' : Expression}, e.Below n →
    foldAll fn e = .ok e' → e'.Below n := by
  induction e with
  | constant v =>
      intro e' h hfold
      have hfold : fold fn (constant v) = .ok e' := hfold
      exact below_fold h hfold
  | column i =>
      intro e' h hfold
      have hfold : fold fn (column i) = .ok e' := hfold
      exact below_fold h hfold
  | binary op l r ihl ihr =>
      intro e' h hfold
      obtain ⟨l', hl, hfold⟩ := bind_eq_ok.mp hfold
      obtain ⟨r', hr, hfold⟩ := bind_eq_ok.mp hfold
      obtain ⟨hbl, hbr⟩ := below_binary.mp h
      exact below_fold (below_binary.mpr ⟨ihl hbl hl, ihr hbr hr⟩) hfold
  | unary op x ih =>
      intro e' h hfold
      obtain ⟨x', hx, hfold⟩ := bind_eq_ok.mp hfold
      exact below_fold (below_unary.mpr (ih (below_unary.mp h) hx)) hfold
  | is x v ih =>
      intro e' h hfold
      obtain ⟨x', hx, hfold⟩ := bind_eq_ok.mp hfold
      exact below_fold (below_is.mpr (ih (below_is.mp h) hx)) hfold

/-- A node whose expressions are folded. -/
theorem folds_transformExpressions {node node' : Node} (h : node.Scoped)
    (hfold : node.transformExpressions (foldAll fn) = .ok node') :
    node'.Scoped ∧ Node.TakingFace node node' ∧ node'.sources = node.sources ∧
      (FilterPushdown.Takes node → FilterPushdown.Takes node') := by
  cases node with
  | aggregate | hashJoin | indexLookup | keyLookup | limit | nothing | offset | remap =>
      obtain rfl := Except.ok.inj hfold
      exact ⟨h, ⟨.refl _, rfl⟩, rfl, id⟩
  | filter source predicate =>
      obtain ⟨predicate', hp, hfold⟩ := bind_eq_ok.mp hfold
      obtain rfl := Except.ok.inj hfold
      exact ⟨below_foldAll h hp, ⟨⟨rfl, rfl⟩, rfl⟩, rfl, id⟩
  | nestedLoopJoin left right predicate outer =>
      cases predicate with
      | none =>
          obtain rfl := Except.ok.inj hfold
          exact ⟨h, ⟨.refl _, rfl⟩, rfl, id⟩
      | some predicate =>
          obtain ⟨predicate', hp, hfold⟩ := bind_eq_ok.mp hfold
          obtain rfl := Except.ok.inj hfold
          refine ⟨?_, ⟨⟨rfl, rfl⟩, rfl⟩, rfl, id⟩
          intro e he
          cases he
          exact below_foldAll (h predicate rfl) hp
  | order source key =>
      obtain ⟨key', hkey, hfold⟩ := bind_eq_ok.mp hfold
      obtain rfl := Except.ok.inj hfold
      refine ⟨?_, ⟨⟨rfl, rfl⟩, rfl⟩, rfl, id⟩
      intro entry hentry
      obtain ⟨entry', hmem, hentry'⟩ := exists_of_mem_mapM hkey hentry
      obtain ⟨e, he, hentry'⟩ := bind_eq_ok.mp hentry'
      cases hentry'
      exact below_foldAll (h entry' hmem) he
  | projection source expressions aliases =>
      obtain ⟨expressions', hes, hfold⟩ := bind_eq_ok.mp hfold
      obtain rfl := Except.ok.inj hfold
      refine ⟨?_, ⟨⟨length_mapM hes, rfl⟩, rfl⟩, rfl, id⟩
      intro e he
      obtain ⟨e', hmem, he'⟩ := exists_of_mem_mapM hes he
      exact below_foldAll (h e' hmem) he'
  | scan table predicate =>
      cases predicate with
      | none =>
          obtain rfl := Except.ok.inj hfold
          exact ⟨h, ⟨.refl _, rfl⟩, rfl, id⟩
      | some predicate =>
          obtain ⟨predicate', hp, hfold⟩ := bind_eq_ok.mp hfold
          obtain rfl := Except.ok.inj hfold
          refine ⟨?_, ⟨⟨rfl, rfl⟩, rfl⟩, rfl, id⟩
          intro e he
          cases he
          exact below_foldAll (h predicate rfl) hp
  | values rows =>
      obtain ⟨rows', hrows, hfold⟩ := bind_eq_ok.mp hfold
      obtain rfl := Except.ok.inj hfold
      refine ⟨?_, ⟨⟨?_, rfl⟩, rfl⟩, rfl, id⟩
      · intro row hrow e he
        obtain ⟨row', hmem, hrow'⟩ := exists_of_mem_mapM hrows hrow
        obtain ⟨e', hmem', he'⟩ := exists_of_mem_mapM hrow' he
        exact below_foldAll (h row' hmem e' hmem') he'
      · have hall := forall₂_of_mapM hrows
        cases hall with
        | nil => rfl
        | cons hrow _ =>
            simp only [Node.columns, List.head?_cons, Option.map_some, Option.getD_some]
            exact length_mapM hrow

theorem all_optimize {node node' : Node} (h : node.All Pushable)
    (hoptimize : optimize fn node = .ok node') :
    node'.All Pushable ∧ Node.TakingFace node node' := by
  refine Node.all_transformM Node.standIn_takingFace local_pushable ?_ _ node node' h hoptimize
  intro node node' hall hfold
  obtain ⟨htop, hsources⟩ := Node.all_iff.mp hall
  obtain ⟨hscoped, hface, heq, htakes⟩ := folds_transformExpressions htop.1 hfold
  exact ⟨Node.all_iff.mpr ⟨⟨hscoped, htakes htop.2⟩, heq ▸ hsources⟩, hface⟩

end ConstantFolding

/-! ## Filter pushdown -/

namespace FilterPushdown
open Expression
variable {n : ℕ} {e : Expression} {es : List Expression}

theorem columns_andVec {P : ℕ → Prop} (h : ∀ e ∈ es, ∀ i ∈ e.columns, P i)
    (heq : andVec es = some e) : ∀ i ∈ e.columns, P i := by
  have hfold : ∀ (es : List Expression) (e : Expression), (∀ i ∈ e.columns, P i) →
      (∀ e ∈ es, ∀ i ∈ e.columns, P i) → ∀ i ∈ (es.foldl Expression.and e).columns, P i := by
    intro es
    induction es with
    | nil => exact fun e he _ => he
    | cons e' es ih =>
        intro e he hes
        obtain ⟨he', hes⟩ := List.forall_mem_cons.mp hes
        exact ih _ (List.forall_mem_append.mpr ⟨he, he'⟩) hes
  cases es with
  | nil => cases heq
  | cons e' es =>
      obtain rfl := Option.some.inj heq
      obtain ⟨he', hes⟩ := List.forall_mem_cons.mp h
      exact hfold es e' he' hes

theorem below_andVec (h : ∀ e ∈ es, e.Below n) (heq : andVec es = some e) : e.Below n :=
  columns_andVec h heq

/-- A node that a predicate was pushed into. -/
structure Pushed (node node' : Node) : Prop where
  all : node.All Pushable → node'.All Pushable
  face : Node.TakingFace node node'
  size : node'.size ≤ node.size

theorem Pushed.refl (node : Node) : Pushed node node := ⟨id, ⟨.refl _, rfl⟩, le_rfl⟩

theorem pushed_pushInto {node node' : Node} (he : e.Below node.columns)
    (h : pushInto e node = some node') : Pushed node node' := by
  cases node with
  | filter source predicate =>
      obtain rfl := Option.some.inj h
      refine ⟨?_, ⟨⟨rfl, rfl⟩, rfl⟩, le_rfl⟩
      intro hall
      obtain ⟨⟨hscoped, -⟩, hsources⟩ := Node.all_iff.mp hall
      exact Node.all_iff.mpr ⟨⟨below_binary.mpr ⟨he, hscoped⟩, trivial⟩, hsources⟩
  | nestedLoopJoin left right predicate outer =>
      cases predicate with
      | none =>
          obtain rfl := Option.some.inj h
          refine ⟨?_, ⟨⟨rfl, rfl⟩, rfl⟩, le_rfl⟩
          intro hall
          obtain ⟨⟨-, htakes⟩, hsources⟩ := Node.all_iff.mp hall
          refine Node.all_iff.mpr ⟨⟨?_, htakes⟩, hsources⟩
          intro e' he'
          cases he'
          exact he
      | some predicate =>
          obtain rfl := Option.some.inj h
          refine ⟨?_, ⟨⟨rfl, rfl⟩, rfl⟩, le_rfl⟩
          intro hall
          obtain ⟨⟨hscoped, htakes⟩, hsources⟩ := Node.all_iff.mp hall
          refine Node.all_iff.mpr ⟨⟨?_, htakes⟩, hsources⟩
          intro e' he'
          cases he'
          exact below_binary.mpr ⟨he, hscoped predicate rfl⟩
  | scan table predicate =>
      cases predicate with
      | none =>
          obtain rfl := Option.some.inj h
          refine ⟨?_, ⟨⟨rfl, rfl⟩, rfl⟩, le_rfl⟩
          intro hall
          refine Node.all_iff.mpr ⟨⟨?_, trivial⟩, by simp [Node.sources]⟩
          intro e' he'
          cases he'
          exact he
      | some predicate =>
          obtain rfl := Option.some.inj h
          refine ⟨?_, ⟨⟨rfl, rfl⟩, rfl⟩, le_rfl⟩
          intro hall
          obtain ⟨⟨hscoped, -⟩, -⟩ := Node.all_iff.mp hall
          refine Node.all_iff.mpr ⟨⟨?_, trivial⟩, by simp [Node.sources]⟩
          intro e' he'
          cases he'
          exact below_binary.mpr ⟨he, hscoped predicate rfl⟩
  | aggregate | hashJoin | indexLookup | keyLookup | limit | nothing | offset | order | projection
    | remap | values => cases h

/-- A node that does not take a predicate. -/
theorem takes_of_pushInto {node : Node} (h : pushInto e node = none) : takes node = false := by
  cases node with
  | filter => cases h
  | nestedLoopJoin _ _ predicate | scan _ predicate => cases predicate <;> cases h
  | aggregate | hashJoin | indexLookup | keyLookup | limit | nothing | offset | order | projection
    | remap | values => rfl

/-! ### The predicates of a join -/

variable {columns : ℕ} {cnf : List Expression}

theorem refRight_eq_false (h : refRight n e = false) : e.Below n := by
  intro i hi
  by_contra hlt
  rw [refRight, contains_isColumn, List.any_eq_false] at h
  exact h i hi (by simpa using hlt)

theorem refLeft_eq_false (h : refLeft n e = false) : ∀ i ∈ e.columns, n ≤ i := by
  intro i hi
  by_contra hlt
  rw [refLeft, contains_isColumn, List.any_eq_false] at h
  exact h i hi (by simpa using hlt)

/-- The columns of an equijoin. -/
theorem equijoin_eq_some {l r : ℕ} (h : equijoin e = some (l, r)) :
    l ≤ r ∧ ∀ i, i ∈ e.columns ↔ i = l ∨ i = r := by
  unfold equijoin at h
  split at h
  · rename_i a b
    split_ifs at h with hlt
    · obtain ⟨rfl, rfl⟩ := Prod.mk.inj (Option.some.inj h)
      exact ⟨hlt.le, fun i => by simp [columns, or_comm]⟩
    · obtain ⟨rfl, rfl⟩ := Prod.mk.inj (Option.some.inj h)
      exact ⟨not_lt.mp hlt, fun i => by simp [columns]⟩
  · cases h

/-- An equijoin that refers to both sides. -/
theorem equijoin_of_stays {l r : ℕ} (h : e ∈ stays n cnf) (he : equijoin e = some (l, r)) :
    l < n ∧ n ≤ r := by
  obtain ⟨hle, hcolumns⟩ := equijoin_eq_some he
  obtain ⟨-, hrefs⟩ := List.mem_filter.mp h
  simp only [refLeft, refRight, contains_isColumn, Bool.and_eq_true, List.any_eq_true,
    decide_eq_true_eq, hcolumns] at hrefs
  obtain ⟨⟨i, hi, hlt⟩, j, hj, hge⟩ := hrefs
  omega

theorem columns_lookupOf {column : ℕ} {exprs : List Expression}
    (h : lookupOf column exprs = some e) : ∀ i ∈ e.columns, i = column := by
  have hlookup := List.find?_some h
  have hcolumns : Lookup column e := lookup_of_isColumnLookup (of_decide_eq_true hlookup)
  clear h hlookup
  induction hcolumns with
  | equal | equal' | is => simp [columns]
  | or _ _ ihl ihr =>
      intro i hi
      exact (List.mem_append.mp hi).elim (ihl i) (ihr i)

/-- A lookup that is copied to another column. -/
theorem columns_copied {column target : ℕ} {exprs : List Expression}
    (h : lookupOf column exprs = some e) :
    ∀ i ∈ (e.replaceColumn column target).columns, i = target := by
  intro i hi
  rw [replaceColumn_eq, columns_mapColumns] at hi
  obtain ⟨j, hj, rfl⟩ := List.mem_map.mp hi
  rw [if_pos (columns_lookupOf h j hj)]

theorem below_leftPredicates (n : ℕ) (cnf : List Expression) :
    ∀ e ∈ leftPredicates n cnf, e.Below n := by
  intro e he
  obtain he | he := List.mem_append.mp he
  · obtain ⟨-, href⟩ := List.mem_filter.mp he
    exact refRight_eq_false (by simpa using href)
  · obtain ⟨join, hjoin, hcopy⟩ := List.mem_filterMap.mp he
    obtain ⟨⟨l, r⟩, hlr, hcopy⟩ := Option.bind_eq_some_iff.mp hcopy
    obtain ⟨lookup, hlookup, hcopy⟩ := Option.bind_eq_some_iff.mp hcopy
    obtain rfl := Option.some.inj hcopy
    intro i hi
    rw [columns_copied hlookup i hi]
    exact (equijoin_of_stays hjoin hlr).1

theorem columns_rightPredicates {total : ℕ} (hcnf : ∀ e ∈ cnf, e.Below total) :
    ∀ e ∈ rightPredicates n cnf, ∀ i ∈ e.columns, n ≤ i ∧ i < total := by
  intro e he i hi
  obtain he | he := List.mem_append.mp he
  · obtain ⟨hmem, href⟩ := List.mem_filter.mp he
    exact ⟨refLeft_eq_false (by simpa using href) i hi, hcnf e hmem i hi⟩
  · obtain ⟨join, hjoin, hcopy⟩ := List.mem_filterMap.mp he
    obtain ⟨⟨l, r⟩, hlr, hcopy⟩ := Option.bind_eq_some_iff.mp hcopy
    obtain ⟨lookup, hlookup, hcopy⟩ := Option.bind_eq_some_iff.mp hcopy
    obtain rfl := Option.some.inj hcopy
    rw [columns_copied hlookup i hi]
    refine ⟨(equijoin_of_stays hjoin hlr).2, ?_⟩
    exact hcnf join (List.mem_filter.mp hjoin).1 r (((equijoin_eq_some hlr).2 r).mpr (.inr rfl))

/-! ### Pushing into the sources -/

theorem pushLeftInto_spec {exprs : List Expression} (predicate : List Expression) {left : Node}
    (h : ∀ e ∈ exprs, e.Below left.columns) :
    Pushed left (pushLeftInto exprs predicate left).1 ∧
      ∃ failed, (pushLeftInto exprs predicate left).2 = predicate ++ failed ∧
        (failed = [] ∨ ∃ e, andVec exprs = some e ∧ failed = [e] ∧ takes left = false) := by
  unfold pushLeftInto
  cases hand : andVec exprs with
  | none => exact ⟨.refl left, [], by simp, .inl rfl⟩
  | some e =>
      dsimp only
      cases hpush : pushInto e left with
      | some left' =>
          exact ⟨pushed_pushInto (below_andVec h hand) hpush, [], by simp, .inl rfl⟩
      | none =>
          exact ⟨.refl left, [e], rfl, .inr ⟨e, rfl, rfl, takes_of_pushInto hpush⟩⟩

theorem shiftColumn_shiftColumn (h : ∀ i ∈ e.columns, n ≤ i) :
    (e.shiftColumn (-n)).shiftColumn n = e := by
  rw [shiftColumn_eq, shiftColumn_eq]
  induction e with
  | constant v => rfl
  | column i =>
      have := h i (by simp [columns])
      simp only [mapColumns, column.injEq]
      omega
  | binary op l r ihl ihr =>
      obtain ⟨hl, hr⟩ := List.forall_mem_append.mp h
      rw [mapColumns, mapColumns, ihl hl, ihr hr]
  | unary op x ih => rw [mapColumns, mapColumns, ih h]
  | is x v ih => rw [mapColumns, mapColumns, ih h]

theorem pushRightInto_spec {exprs : List Expression} (predicate : List Expression) {right : Node}
    (h : ∀ e ∈ exprs, ∀ i ∈ e.columns, n ≤ i ∧ i < n + right.columns) :
    Pushed right (pushRightInto n exprs predicate right).1 ∧
      ∃ failed, (pushRightInto n exprs predicate right).2 = predicate ++ failed ∧
        (failed = [] ∨ ∃ e, andVec exprs = some e ∧ failed = [e] ∧ takes right = false) := by
  unfold pushRightInto
  cases hand : andVec exprs with
  | none => exact ⟨.refl right, [], by simp, .inl rfl⟩
  | some e =>
      have hcolumns := columns_andVec h hand
      have hbelow : (e.shiftColumn (-n)).Below right.columns := by
        intro i hi
        rw [shiftColumn_eq, columns_mapColumns] at hi
        obtain ⟨j, hj, rfl⟩ := List.mem_map.mp hi
        have := hcolumns j hj
        omega
      dsimp only
      cases hpush : pushInto (e.shiftColumn (-n)) right with
      | some right' => exact ⟨pushed_pushInto hbelow hpush, [], by simp, .inl rfl⟩
      | none =>
          refine ⟨.refl right, [e], ?_, .inr ⟨e, rfl, rfl, takes_of_pushInto hpush⟩⟩
          rw [shiftColumn_shiftColumn fun i hi => (hcolumns i hi).1]

/-! ### Joins -/

/-- What is left of the predicate of a join. -/
theorem maybePushJoin_spec {left right : Node} {predicate : Expression} (outer : Bool)
    (h : predicate.Below (left.columns + right.columns)) :
    ∃ left' right' failed failed',
      maybePushJoin (.nestedLoopJoin left right (some predicate) outer) =
        .nestedLoopJoin left' right'
          (andVec (stays left.columns predicate.intoCnfVec ++ failed ++ failed')) outer ∧
      Pushed left left' ∧ Pushed right right' ∧
      (failed = [] ∨ ∃ e, andVec (leftPredicates left.columns predicate.intoCnfVec) = some e ∧
        failed = [e] ∧ takes left = false) ∧
      (failed' = [] ∨ ∃ e, andVec (rightPredicates left.columns predicate.intoCnfVec) = some e ∧
        failed' = [e] ∧ takes right = false) := by
  have hcnf : ∀ e ∈ predicate.intoCnfVec, e.Below (left.columns + right.columns) :=
    fun e he i hi => h i (columns_intoCnfVec he hi)
  obtain ⟨hleft, failed, hfailed, hl⟩ := pushLeftInto_spec
    (stays left.columns predicate.intoCnfVec)
    (below_leftPredicates left.columns predicate.intoCnfVec)
  obtain ⟨hright, failed', hfailed', hr⟩ := pushRightInto_spec
    (stays left.columns predicate.intoCnfVec ++ failed)
    (columns_rightPredicates (n := left.columns) hcnf)
  refine ⟨_, _, failed, failed', ?_, hleft, hright, hl, hr⟩
  unfold maybePushJoin
  dsimp only
  rw [hfailed, hfailed']

theorem pushed_maybePushJoin {node : Node} (h : node.All Pushable) :
    Pushed node (maybePushJoin node) := by
  cases node with
  | nestedLoopJoin left right predicate outer =>
      cases predicate with
      | none => exact .refl _
      | some predicate =>
          obtain ⟨⟨hscoped, htakes⟩, hsources⟩ := Node.all_iff.mp h
          have hbelow := hscoped predicate rfl
          obtain ⟨left', right', failed, failed', heq, hleft, hright, hl, hr⟩ :=
            maybePushJoin_spec outer hbelow
          rw [heq]
          refine ⟨fun _ => Node.all_iff.mpr ⟨⟨?_, ?_⟩, ?_⟩, ⟨⟨?_, rfl⟩, rfl⟩, ?_⟩
          · intro e he
            rw [hleft.face.columns, hright.face.columns]
            refine below_andVec ?_ he
            intro e he i hi
            have hcnf : ∀ e ∈ predicate.intoCnfVec, e.Below (left.columns + right.columns) :=
              fun e he i hi => hbelow i (columns_intoCnfVec he hi)
            obtain he | he := List.mem_append.mp he
            · obtain he | he := List.mem_append.mp he
              · exact hcnf e (List.mem_filter.mp he).1 i hi
              · obtain rfl | ⟨e', he', rfl, -⟩ := hl
                · cases he
                · obtain rfl := List.mem_singleton.mp he
                  have := below_andVec (below_leftPredicates _ _) he' i hi
                  omega
            · obtain rfl | ⟨e', he', rfl, -⟩ := hr
              · cases he
              · obtain rfl := List.mem_singleton.mp he
                exact (columns_andVec (columns_rightPredicates hcnf) he' i hi).2
          · simpa only [Takes, hleft.face.takes, hleft.face.isRemap, hright.face.takes,
              hright.face.isRemap] using htakes
          · simp only [Node.sources, List.forall_mem_cons] at hsources ⊢
            exact ⟨hleft.all hsources.1, hright.all hsources.2.1, by simp⟩
          · simp only [Node.columns, hleft.face.columns, hright.face.columns]
          · have := hleft.size
            have := hright.size
            simp only [Node.size]
            omega
  | aggregate | filter | hashJoin | indexLookup | keyLookup | limit | nothing | offset | order
    | projection | remap | scan | values => exact .refl _

theorem Pushed.trans {node₁ node₂ node₃ : Node} (h : Pushed node₁ node₂) (h' : Pushed node₂ node₃) :
    Pushed node₁ node₃ :=
  ⟨fun hall => h'.all (h.all hall), Node.standIn_takingFace.trans _ _ _ h.face h'.face,
    h'.size.trans h.size⟩

/-- A filter whose predicate is pushed into its source is replaced by the source. -/
theorem pushed_filter {source source' : Node} {predicate : Expression}
    (h : (Node.filter source predicate).All Pushable)
    (hpush : pushInto predicate source = some source') :
    Pushed (.filter source predicate) source' := by
  obtain ⟨⟨hscoped, -⟩, hsources⟩ := Node.all_iff.mp h
  have hpushed := pushed_pushInto hscoped hpush
  have htakes : takes source = true ∧ source.isRemap = false := by
    cases source with
    | filter | nestedLoopJoin | scan => exact ⟨rfl, rfl⟩
    | aggregate | hashJoin | indexLookup | keyLookup | limit | nothing | offset | order
      | projection | remap | values => cases hpush
  refine ⟨fun _ => hpushed.all (hsources source (by simp [Node.sources])),
    ⟨⟨hpushed.face.columns, ?_⟩, ?_⟩, hpushed.size.trans (Nat.le_succ _)⟩
  · exact hpushed.face.isRemap.trans htakes.2
  · exact hpushed.face.takes.trans htakes.1

theorem pushed_pushFilters (levels : ℕ) : ∀ {node : Node}, node.All Pushable →
    Pushed node (pushFilters levels node) := by
  induction levels with
  | zero =>
      intro node h
      exact pushed_maybePushJoin h
  | succ levels ih =>
      intro node h
      cases node with
      | filter source predicate =>
          rw [pushFilters]
          cases hpush : pushInto predicate source with
          | none => exact .refl _
          | some source' =>
              have hsource := pushed_filter h hpush
              have hpushed := ih (hsource.all h)
              exact (hsource.trans hpushed).trans
                (pushed_maybePushJoin (hpushed.all (hsource.all h)))
      | aggregate | hashJoin | indexLookup | keyLookup | limit | nestedLoopJoin | nothing | offset
        | order | projection | remap | scan | values => exact pushed_maybePushJoin h

theorem all_transform (levels : ℕ) {node : Node} (h : node.All Pushable) :
    (node.transform (fun node => pushFilters node.size node) levels).All Pushable ∧
      Node.TakingFace node (node.transform (fun node => pushFilters node.size node) levels) := by
  refine Node.all_transformM Node.standIn_takingFace local_pushable ?_ levels node _ h
    (Node.transformM_ok _ _ _)
  intro node node' hall heq
  obtain rfl := Except.ok.inj heq
  have hpushed := pushed_pushFilters node.size hall
  exact ⟨hpushed.all hall, hpushed.face⟩

theorem all_optimize {node : Node} (h : node.All Pushable) : (optimize node).All Pushable :=
  (all_transform node.size h).1

end FilterPushdown

/-! ## Index lookups -/

namespace IndexLookup
open Expression

def optimize (node : Node) : Except Failure Node := node.transformM indexLookup node.size

/-- A well-scoped node that is no join. -/
def Single : Node → Prop
  | .nestedLoopJoin .. | .hashJoin .. => False
  | node => node.Scoped

theorem columns_lookup {c : ℕ} {e : Expression} (h : Lookup c e) : c ∈ e.columns := by
  induction h with
  | equal | equal' | is => simp [columns]
  | or _ _ ih _ => exact List.mem_append_left _ ih

/-- A filtered scan becomes a lookup, which may be filtered. -/
theorem all_indexLookup {node : Node} (h : node.Scoped) :
    ∃ node', indexLookup node = .ok node' ∧
      (node' = node ∨ node'.All Single ∧ Node.Face node node') := by
  unfold indexLookup
  split
  · rename_i table predicate
    have hcolumns : predicate.Below table.columns.length := h predicate rfl
    obtain ⟨hscan, -⟩ | ⟨i, c, e, he, hlookup, -, -, hnode⟩ := indexLookup_spec hcolumns
    · exact ⟨_, hscan, .inl rfl⟩
    refine ⟨_, hnode, .inr ?_⟩
    have hc : c < table.columns.length :=
      hcolumns c (columns_intoCnfVec (List.mem_of_getElem? he) (columns_lookup hlookup))
    have hsingle : (lookupNode table c e.literals).All Single ∧
        Node.Face (.scan table (some predicate)) (lookupNode table c e.literals) := by
      unfold lookupNode
      split_ifs
      · exact ⟨Node.all_iff.mpr ⟨trivial, by simp [Node.sources]⟩, rfl, rfl⟩
      · exact ⟨Node.all_iff.mpr ⟨hc, by simp [Node.sources]⟩, rfl, rfl⟩
    cases hrest : Expression.andVec (predicate.intoCnfVec.eraseIdx i) with
    | none => exact hsingle
    | some rest =>
        refine ⟨Node.all_iff.mpr ⟨?_, ?_⟩, hsingle.2.columns, rfl⟩
        · show rest.Below (lookupNode table c e.literals).columns
          rw [hsingle.2.columns]
          refine FilterPushdown.below_andVec ?_ hrest
          exact fun e' he' j hj =>
            hcolumns j (columns_intoCnfVec (List.mem_of_mem_eraseIdx he') hj)
        · intro source hsource
          obtain rfl := List.mem_singleton.mp hsource
          exact hsingle.1
  · exact ⟨_, rfl, .inl rfl⟩

/-- Index lookups keep what only concerns joins. -/
theorem all_optimize {P : Node → Prop} (hlocal : Node.Local Node.Face P)
    (hscoped : ∀ node, P node → node.Scoped) (hsingle : ∀ node, Single node → P node)
    {node node' : Node} (h : node.All P) (hoptimize : optimize node = .ok node') :
    node'.All P ∧ Node.Face node node' := by
  refine Node.all_transformM Node.standIn_face hlocal ?_ _ node node' h hoptimize
  intro node node' hall heq
  obtain ⟨result, hresult, hcase⟩ := all_indexLookup (hscoped node (hall node .top))
  obtain rfl := Except.ok.inj (hresult.symm.trans heq)
  obtain rfl | ⟨hsingles, hface⟩ := hcase
  · exact ⟨hall, .refl _⟩
  · exact ⟨fun n hn => hsingle n (hsingles n hn), hface⟩

end IndexLookup
end ToyDB.Sql
