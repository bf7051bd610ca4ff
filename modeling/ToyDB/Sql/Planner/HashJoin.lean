import ToyDB.Sql.Planner.Passes
import ToyDB.Sql.Planner.Planned

/-!
# Hash joins

A nested-loop join on the equality of two columns becomes a hash join, whose right column is
found by subtracting the columns on the left. Filter pushdown moves an equality of two
columns of one side into that side, unless the side is remapped, as right joins are: then
the subtraction fails, or the left column is out of range.
-/
namespace ToyDB.Sql
open FilterPushdown

namespace HashJoin

/-- Rewrites a join on the equality of two columns. -/
def hashJoin : Node → Except Failure Node
  | .nestedLoopJoin left right (some predicate) outer =>
      match equijoin predicate with
      | some (leftColumn, rightColumn) =>
          if rightColumn < left.columns then panics "attempt to subtract with overflow"
          else .ok (.hashJoin left leftColumn right (rightColumn - left.columns) outer)
      | none => .ok (.nestedLoopJoin left right (some predicate) outer)
  | node => .ok node

def optimize (node : Node) : Except Failure Node := node.transformM hashJoin node.size

/-- The passes before it. -/
def preceding (fn : Builtins) (node : Node) : Except Failure Node := do
  let node ← ConstantFolding.optimize fn node
  IndexLookup.optimize (FilterPushdown.optimize node)

/-- The columns of a hash join are columns of its sides. -/
def InRange : Node → Prop
  | .hashJoin left leftColumn right rightColumn _ =>
      leftColumn < left.columns ∧ rightColumn < right.columns
  | _ => True

/-- The pass succeeds, and all columns are in range. -/
def WellFormed (result : Except Failure Node) : Prop :=
  ∃ plan, result = .ok plan ∧ plan.All InRange

/-- A join on the equality of two columns of one side, which is remapped. -/
def Stranded : Node → Prop
  | .nestedLoopJoin left right (some predicate) _ =>
      ∃ l r, equijoin predicate = some (l, r) ∧
        (left.isRemap = true ∧ r < left.columns ∨ right.isRemap = true ∧ left.columns ≤ l)
  | _ => False

/-! ## After filter pushdown -/

/-- An equality of two columns of one side only stays in a join if the side is remapped. -/
def Settled : Node → Prop
  | .nestedLoopJoin left right (some predicate) _ =>
      ∀ l r, equijoin predicate = some (l, r) →
        (r < left.columns → left.isRemap = true) ∧ (left.columns ≤ l → right.isRemap = true)
  | _ => True

theorem local_settled : Node.Local Node.Face Settled := by
  intro node node' hlike h
  cases hlike with
  | leaf => exact h
  | nestedLoopJoin hl hr predicate =>
      cases predicate with
      | none => trivial
      | some predicate => simpa only [Settled, hl.columns, hl.isRemap, hr.isRemap] using h
  | aggregate | filter | hashJoin | limit | offset | order | projection | remap => trivial

/-- A conjunction of several expressions is no equijoin. -/
theorem andVec_equijoin {es : List Expression} {predicate : Expression} {l r : ℕ}
    (h : Expression.andVec es = some predicate) (heq : equijoin predicate = some (l, r)) :
    es = [predicate] := by
  have hfold : ∀ (es : List Expression) (e : Expression),
      equijoin (es.foldl Expression.and e) = some (l, r) → es = [] := by
    intro es
    induction es with
    | nil => exact fun _ _ => rfl
    | cons e' es ih =>
        intro e h
        rw [List.foldl_cons] at h
        rw [ih _ h] at h
        cases h
  cases es with
  | nil => cases h
  | cons e es =>
      obtain rfl := Option.some.inj h
      rw [hfold es e heq]
      rfl

theorem settled_maybePushJoin {node : Node} (h : node.All Pushable) :
    Settled (maybePushJoin node) := by
  cases node with
  | nestedLoopJoin left right predicate outer =>
      cases predicate with
      | none => trivial
      | some predicate =>
          obtain ⟨⟨hscoped, htakes⟩, -⟩ := Node.all_iff.mp h
          have hbelow := hscoped predicate rfl
          have hcnf : ∀ e ∈ predicate.intoCnfVec, e.Below (left.columns + right.columns) :=
            fun e he i hi => hbelow i (Expression.columns_intoCnfVec he hi)
          obtain ⟨left', right', failed, failed', heq, hleft, hright, hl, hr⟩ :=
            maybePushJoin_spec outer hbelow
          rw [heq]
          cases hrest : Expression.andVec
              (stays left.columns predicate.intoCnfVec ++ failed ++ failed') with
          | none => trivial
          | some rest =>
              intro l r hlr
              obtain ⟨-, hcolumns⟩ := equijoin_eq_some hlr
              have hmem : rest ∈ stays left.columns predicate.intoCnfVec ++ failed ++ failed' := by
                rw [andVec_equijoin hrest hlr]
                exact List.mem_cons_self
              rw [hleft.face.columns, hleft.face.isRemap, hright.face.isRemap]
              obtain hmem | hmem := List.mem_append.mp hmem
              · obtain hmem | hmem := List.mem_append.mp hmem
                · have hsides := equijoin_of_stays hmem hlr
                  exact ⟨fun hr => by omega, fun hl => by omega⟩
                · obtain rfl | ⟨e, he, rfl, hnot⟩ := hl
                  · cases hmem
                  · obtain rfl := List.mem_singleton.mp hmem
                    have hlt := below_andVec (below_leftPredicates _ _) he l
                      ((hcolumns l).mpr (.inl rfl))
                    refine ⟨fun _ => ?_, fun hl => by omega⟩
                    exact htakes.1.resolve_left (by rw [hnot]; exact Bool.false_ne_true)
              · obtain rfl | ⟨e, he, rfl, hnot⟩ := hr
                · cases hmem
                · obtain rfl := List.mem_singleton.mp hmem
                  have hge := (columns_andVec (columns_rightPredicates hcnf) he r
                    ((hcolumns r).mpr (.inr rfl))).1
                  refine ⟨fun hr => by omega, fun _ => ?_⟩
                  exact htakes.2.resolve_left (by rw [hnot]; exact Bool.false_ne_true)
  | aggregate | filter | hashJoin | indexLookup | keyLookup | limit | nothing | offset | order
    | projection | remap | scan | values => trivial

theorem settled_pushFilters (levels : ℕ) : ∀ {node : Node}, node.All Pushable →
    Settled (pushFilters levels node) := by
  induction levels with
  | zero =>
      intro node h
      exact settled_maybePushJoin h
  | succ levels ih =>
      intro node h
      cases node with
      | filter source predicate =>
          rw [pushFilters]
          cases hpush : pushInto predicate source with
          | none => trivial
          | some source' =>
              have hsource := (pushed_filter h hpush).all h
              exact settled_maybePushJoin ((pushed_pushFilters levels hsource).all hsource)
      | aggregate | hashJoin | indexLookup | keyLookup | limit | nestedLoopJoin | nothing | offset
        | order | projection | remap | scan | values => exact settled_maybePushJoin h

theorem size_pos (node : Node) : 0 < node.size := by
  cases node <;> simp [Node.size]

theorem size_source {node source : Node} (h : source ∈ node.sources) : source.size < node.size := by
  cases node with
  | hashJoin | nestedLoopJoin =>
      simp only [Node.sources, List.mem_cons, List.not_mem_nil, or_false] at h
      obtain rfl | rfl := h <;> simp only [Node.size] <;> omega
  | aggregate | filter | limit | offset | order | projection | remap =>
      obtain rfl := List.mem_singleton.mp h
      simp [Node.size]
  | indexLookup | keyLookup | nothing | scan | values => cases h

/-- Every join is settled when the pushdown has reached it. -/
theorem settled_transform (levels : ℕ) : ∀ node : Node, node.size ≤ levels → node.All Pushable →
    (node.transform (fun node => pushFilters node.size node) levels).All Settled := by
  induction levels with
  | zero =>
      intro node hsize
      have := size_pos node
      omega
  | succ levels ih =>
      intro node hsize h
      have hpushed := pushed_pushFilters node.size h
      obtain ⟨-, hsources⟩ := Node.all_iff.mp (hpushed.all h)
      have hlike : Node.Like (fun source source' => source'.All Settled ∧ Node.Face source source')
          (pushFilters node.size node)
          (node.transform (fun node => pushFilters node.size node) (levels + 1)) := by
        refine (Node.like_of_mapSourcesM (Node.mapSourcesM_ok _ _)).imp ?_
        intro source hsource source' heq
        obtain rfl := Except.ok.inj heq
        refine ⟨ih source ?_ (hsources source hsource),
          (all_transform levels (hsources source hsource)).2.toFace⟩
        have := size_source hsource
        have := hpushed.size
        omega
      refine Node.all_iff.mpr ⟨local_settled _ _ (hlike.imp fun _ _ _ h => h.2)
        (settled_pushFilters node.size h), ?_⟩
      intro source' hsource'
      obtain ⟨source, -, hsource, -⟩ := hlike.exists_source hsource'
      exact hsource

theorem settled_preceding {fn : Builtins} {node node' : Node} (h : node.All Pushable)
    (hpreceding : preceding fn node = .ok node') :
    node'.All fun node => node.Scoped ∧ Settled node := by
  obtain ⟨folded, hfolded, hpreceding⟩ := bind_eq_ok.mp hpreceding
  obtain ⟨hall, -⟩ := ConstantFolding.all_optimize h hfolded
  have hscoped := FilterPushdown.all_optimize hall
  have hsettled := settled_transform folded.size folded le_rfl hall
  refine (IndexLookup.all_optimize ?_ (fun _ h => h.1) ?_
    (fun node hnode => ⟨(hscoped node hnode).1, hsettled node hnode⟩) hpreceding).1
  · intro node node' hlike h
    exact ⟨Node.local_scoped _ _ hlike h.1, local_settled _ _ hlike h.2⟩
  · intro node h
    cases node with
    | nestedLoopJoin | hashJoin => cases h
    | aggregate | filter | indexLookup | keyLookup | limit | nothing | offset | order | projection
      | remap | scan | values => exact ⟨h, trivial⟩

/-! ## The pass -/

/-- The columns of an equijoin are columns of the sides. -/
def Crossing : Node → Prop
  | .nestedLoopJoin left right (some predicate) _ =>
      ∀ l r, equijoin predicate = some (l, r) →
        l < left.columns ∧ left.columns ≤ r ∧ r < left.columns + right.columns
  | _ => True

theorem crossing_of_settled {node : Node} (hscoped : node.Scoped) (hsettled : Settled node)
    (hstranded : ¬ Stranded node) : Crossing node := by
  cases node with
  | nestedLoopJoin left right predicate outer =>
      cases predicate with
      | none => trivial
      | some predicate =>
          intro l r hlr
          obtain ⟨hle, hcolumns⟩ := equijoin_eq_some hlr
          obtain ⟨hleft, hright⟩ := hsettled l r hlr
          have hr := hscoped predicate rfl r ((hcolumns r).mpr (.inr rfl))
          refine ⟨?_, ?_, hr⟩
          · by_contra hl
            exact hstranded ⟨l, r, hlr, .inr ⟨hright (not_lt.mp hl), not_lt.mp hl⟩⟩
          · by_contra hr
            exact hstranded ⟨l, r, hlr, .inl ⟨hleft (not_le.mp hr), not_le.mp hr⟩⟩
  | aggregate | filter | hashJoin | indexLookup | keyLookup | limit | nothing | offset | order
    | projection | remap | scan | values => trivial

theorem local_crossing : Node.Local Node.Face Crossing := by
  intro node node' hlike h
  cases hlike with
  | leaf => exact h
  | nestedLoopJoin hl hr predicate =>
      cases predicate with
      | none => trivial
      | some predicate => simpa only [Crossing, hl.columns, hr.columns] using h
  | aggregate | filter | hashJoin | limit | offset | order | projection | remap => trivial

theorem face_hashJoin {node node' : Node} (h : hashJoin node = .ok node') :
    Node.Face node node' ∧ node'.sources = node.sources := by
  unfold hashJoin at h
  split at h
  · split at h
    · split_ifs at h
      · cases h
      · obtain rfl := Except.ok.inj h
        exact ⟨⟨rfl, rfl⟩, rfl⟩
    · obtain rfl := Except.ok.inj h
      exact ⟨.refl _, rfl⟩
  · obtain rfl := Except.ok.inj h
    exact ⟨.refl _, rfl⟩

/-- A join between the sides becomes a hash join on columns in range. -/
theorem hashJoin_of_crossing {node : Node} (hscoped : node.Scoped) (hcrossing : Crossing node) :
    ∃ node', hashJoin node = .ok node' ∧ node'.Scoped ∧ Crossing node' := by
  unfold hashJoin
  split
  · rename_i left right predicate outer
    cases heq : equijoin predicate with
    | none => exact ⟨_, rfl, hscoped, hcrossing⟩
    | some columns =>
        obtain ⟨l, r⟩ := columns
        obtain ⟨hl, hle, hr⟩ := hcrossing l r heq
        dsimp only
        rw [if_neg (by omega)]
        exact ⟨_, rfl, ⟨hl, by omega⟩, trivial⟩
  · exact ⟨_, rfl, hscoped, hcrossing⟩

theorem wellFormed_of_crossing {node : Node}
    (h : node.All fun node => node.Scoped ∧ Crossing node) : WellFormed (optimize node) := by
  have hstep : ∀ node node', node.All (fun node => node.Scoped ∧ Crossing node) →
      hashJoin node = .ok node' →
      node'.All (fun node => node.Scoped ∧ Crossing node) ∧ Node.Face node node' := by
    intro node node' hall heq
    obtain ⟨htop, hsources⟩ := Node.all_iff.mp hall
    obtain ⟨result, hresult, hkept⟩ := hashJoin_of_crossing htop.1 htop.2
    obtain rfl := Except.ok.inj (hresult.symm.trans heq)
    obtain ⟨hface, hsame⟩ := face_hashJoin heq
    exact ⟨Node.all_iff.mpr ⟨hkept, hsame ▸ hsources⟩, hface⟩
  obtain ⟨plan, hplan⟩ := Node.transformM_total (fun node hall => by
    obtain ⟨htop, -⟩ := Node.all_iff.mp hall
    obtain ⟨result, hresult, -⟩ := hashJoin_of_crossing htop.1 htop.2
    exact ⟨result, hresult, (hstep node result hall hresult).1⟩) node.size node h
  have hlocal : Node.Local Node.Face fun node => node.Scoped ∧ Crossing node :=
    fun _ _ hlike h => ⟨Node.local_scoped _ _ hlike h.1, local_crossing _ _ hlike h.2⟩
  obtain ⟨hall, -⟩ := Node.all_transformM Node.standIn_face hlocal hstep node.size node plan h hplan
  refine ⟨plan, hplan, ?_⟩
  intro join hjoin
  have hscoped := (hall join hjoin).1
  cases join with
  | hashJoin => exact hscoped
  | aggregate | filter | indexLookup | keyLookup | limit | nestedLoopJoin | nothing | offset | order
    | projection | remap | scan | values => trivial

theorem face_transformM (levels : ℕ) {node node' : Node}
    (h : node.transformM hashJoin levels = .ok node') : Node.Face node node' := by
  refine (Node.all_transformM Node.standIn_face (P := fun _ => True) (fun _ _ _ _ => trivial) ?_
    levels node node' (fun _ _ => trivial) h).2
  intro node node' _ heq
  exact ⟨fun _ _ => trivial, (face_hashJoin heq).1⟩

/-- Where the pass succeeds with columns in range, no join is stranded. -/
theorem not_stranded_of_transformM (levels : ℕ) : ∀ node node' : Node, node.size ≤ levels →
    node.transformM hashJoin levels = .ok node' → node'.All InRange →
    node.All fun node => ¬ Stranded node := by
  induction levels with
  | zero =>
      intro node node' hsize
      have := size_pos node
      omega
  | succ levels ih =>
      intro node node' hsize h hrange
      obtain ⟨middle, hmiddle, h⟩ := bind_eq_ok.mp h
      obtain ⟨-, hsame⟩ := face_hashJoin hmiddle
      have hlike := Node.like_of_mapSourcesM h
      obtain ⟨htop, hsources⟩ := Node.all_iff.mp hrange
      refine Node.all_iff.mpr ⟨?_, ?_⟩
      · intro hstranded
        cases node with
        | nestedLoopJoin left right predicate outer =>
            cases predicate with
            | none => exact hstranded
            | some predicate =>
                obtain ⟨l, r, hlr, hside⟩ := hstranded
                unfold hashJoin at hmiddle
                dsimp only at hmiddle
                rw [hlr] at hmiddle
                dsimp only at hmiddle
                split_ifs at hmiddle with hr
                · cases hmiddle
                · obtain rfl := Except.ok.inj hmiddle
                  cases hlike with
                  | leaf hnone => cases hnone
                  | hashJoin hleft hright =>
                      have hl := htop.1
                      rw [(face_transformM levels hleft).columns] at hl
                      omega
        | aggregate | filter | hashJoin | indexLookup | keyLookup | limit | nothing | offset | order
          | projection | remap | scan | values => exact hstranded
      · intro source hsource
        rw [← hsame] at hsource
        obtain ⟨source', hsource', heq⟩ := hlike.exists_standIn hsource
        refine ih source source' ?_ heq (hsources source' hsource')
        rw [hsame] at hsource
        have := size_source hsource
        omega

/-- For every SELECT, the pass yields hash joins on columns in range just if no join is left
with an equality of two columns of a remapped side. -/
theorem optimize_wellFormed_iff {fn : Builtins} {catalog : Catalog} {statement : Ast.Select}
    {planned node : Node} (hplanned : Planner.buildSelect fn catalog statement = .ok planned)
    (hnode : preceding fn planned = .ok node) :
    WellFormed (optimize node) ↔ ∀ join, node.Within join → ¬ Stranded join := by
  constructor
  · rintro ⟨plan, hplan, hrange⟩
    exact not_stranded_of_transformM node.size node plan le_rfl hplan hrange
  · intro hstranded
    have hsettled := settled_preceding (Planner.all_buildSelect hplanned) hnode
    exact wellFormed_of_crossing fun join hjoin =>
      ⟨(hsettled join hjoin).1, crossing_of_settled (hsettled join hjoin).1 (hsettled join hjoin).2
        (hstranded join hjoin)⟩

/-! ## Joins of people -/

/-- `id` of one person is `id` of another. -/
def sameId (table table' : String) : Ast.Expression :=
  .binary .equal (.column (some table) "id") (.column (some table') "id")

def person (name : String) : Ast.From := .table "people" (some name)

/-- `SELECT * FROM …` -/
def selectAll (from' : Ast.From) : Ast.Select where
  select := [(.all, none)]
  from' := [from']
  where' := none
  groupBy := []
  having := none
  orderBy := []
  offset := none
  limit := none

/-- `SELECT * FROM people p JOIN people q ON p.id = q.id` -/
def pairs : Ast.Select := selectAll (.join (person "p") (person "q") .inner (some (sameId "p" "q")))

def pairsPlan : Node :=
  .nestedLoopJoin (.scan Planner.people none) (.scan Planner.people none)
    (some (.equal (.column 0) (.column 2))) false

theorem build_pairs :
    Planner.buildSelect .unused Planner.peopleCatalog pairs = .ok pairsPlan := rfl

theorem preceding_pairs : preceding .unused pairsPlan = .ok pairsPlan := by decide +kernel

theorem wellFormed_pairs : WellFormed (optimize pairsPlan) ↔
    ∀ join, pairsPlan.Within join → ¬ Stranded join :=
  optimize_wellFormed_iff build_pairs preceding_pairs

/-- `SELECT * FROM people p RIGHT JOIN people q ON p.id = q.id JOIN people r ON p.id = q.id` -/
def swapped : Ast.Select :=
  selectAll (.join (.join (person "p") (person "q") .right (some (sameId "p" "q"))) (person "r")
    .inner (some (sameId "p" "q")))

/-- The equality of two columns on the left stays in the join. -/
def swappedPlan : Node :=
  .nestedLoopJoin
    (.remap
      (.nestedLoopJoin (.scan Planner.people none) (.scan Planner.people none)
        (some (.equal (.column 2) (.column 0))) true)
      [some 2, some 3, some 0, some 1])
    (.scan Planner.people none) (some (.equal (.column 0) (.column 2))) false

/-- The left side has four columns, so the subtraction from column 2 underflows. -/
theorem not_wellFormed_swapped :
    Planner.buildSelect .unused Planner.peopleCatalog swapped = .ok swappedPlan ∧
      preceding .unused swappedPlan = .ok swappedPlan ∧ ¬ WellFormed (optimize swappedPlan) := by
  have hfails : optimize swappedPlan = panics "attempt to subtract with overflow" := by
    decide +kernel
  refine ⟨rfl, by decide +kernel, ?_⟩
  rintro ⟨plan, hplan, -⟩
  rw [hfails] at hplan
  cases hplan

end HashJoin
end ToyDB.Sql
