import ToyDB.Sql.Planner.Meaning
import ToyDB.Sql.Planner.Passes

/-!
# Pushing predicates down

Moving the conjuncts of a filter or a join into the sources whose columns they refer to
keeps the meaning of a plan, and so does copying a column lookup across an equijoin. An
outer join extends the left rows that have no match by NULLs, so no predicate may be pushed
into an outer join from above, nor out of its ON clause to the left.
-/
namespace ToyDB.Sql
open ToyDB.Collections ToyDB.Mvcc

variable {fn : Builtins} {db : OrderedMap Key Datum}

/-- The node is an outer nested-loop join. -/
def Node.isOuter : Node → Bool
  | .nestedLoopJoin _ _ _ outer => outer
  | _ => false

namespace FilterPushdown
open Expression

/-- No predicate is pushed into an outer join, nor out of its ON clause to the left. -/
def Shielded : Node → Prop
  | .filter source _ => source.isOuter = false
  | .nestedLoopJoin left right _ false => left.isOuter = false ∧ right.isOuter = false
  | .nestedLoopJoin left right predicate true => ∀ p ∈ predicate,
      (leftPredicates left.columns p.intoCnfVec = [] ∨ takes left = false) ∧
      (rightPredicates left.columns p.intoCnfVec = [] ∨ right.isOuter = false)
  | _ => True

/-- Rows that can be joined: the left ones have the width of the source, and no value is a
float, so that values which compare equal are the same. The right source yields no errors. -/
structure Joinable (columns : ℕ) (left right : Except Failure Rows) : Prop where
  wide (row : Row) : Yielded left row → row.length = columns
  flawless (rows : Rows) : right = .ok rows → ∀ e, .error e ∉ rows
  exact (row : Row) : Paired left right row → ∀ v ∈ row, v.datatype ≠ some .float

/-- The sources of a join can be joined. -/
def Ready (fn : Builtins) (db : OrderedMap Key Datum) : Node → Prop
  | .nestedLoopJoin left right _ _ => Joinable left.columns (mean fn db left) (mean fn db right)
  | _ => True

/-- A plan whose predicates can be pushed down. -/
structure Movable (fn : Builtins) (db : OrderedMap Key Datum) (plan : Node) : Prop where
  pushable : plan.All Pushable
  shielded : plan.All Shielded
  ready : plan.All (Ready fn db)

theorem Movable.source {plan source : Node} (h : Movable fn db plan) (hs : source ∈ plan.sources) :
    Movable fn db source :=
  ⟨(Node.all_iff.mp h.pushable).2 source hs, (Node.all_iff.mp h.shielded).2 source hs,
    (Node.all_iff.mp h.ready).2 source hs⟩

section Joinable
variable {columns : ℕ} {left right : Except Failure Rows}

/-- Fewer rows can still be joined. -/
theorem Joinable.keep (h : Joinable columns left right) (kl kr : Row → Bool) :
    Joinable columns (left.map (Rows.keep kl)) (right.map (Rows.keep kr)) := by
  constructor
  · exact fun row hrow => h.wide row (yielded_map_keep.mp hrow).1
  · intro rows hrows e he
    cases right with
    | error e' => cases hrows
    | ok items =>
        obtain rfl := Except.ok.inj hrows
        exact h.flawless items rfl e (error_mem_keep.mp he)
  · rintro row ⟨a, b, ha, hb, rfl⟩
    exact h.exact _ ⟨a, b, (yielded_map_keep.mp ha).1, (yielded_map_keep.mp hb).1, rfl⟩

end Joinable

/-! ## Taking a predicate -/

section Parts
variable {n : ℕ} {cnf exprs : List Expression} {row : Row}

end Parts

/-! ## Pushing into the sources -/

section Sources
variable {exprs : List Expression} {node : Node}

/-- A source after predicates were pushed into it, which keeps some of its rows. The join
checks what the source does not. -/
structure Taken (fn : Builtins) (db : OrderedMap Key Datum) (exprs : List Expression)
    (source source' : Node) (failed : List Expression) (sees : Row → Row → Prop) : Prop where
  movable : Movable fn db source'
  face : Node.TakingFace source source'
  outer : source'.isOuter = source.isOuter
  mean : ∃ keep : Row → Bool, mean fn db source' = (mean fn db source).map (Rows.keep keep) ∧
    (exprs = [] ∨ takes source = false → ∀ row, keep row = true) ∧
    ∀ row joined, sees row joined → ((keep row = true ∧ ∀ e ∈ failed, e.Admits fn joined) ↔
      ∀ e ∈ exprs, e.Admits fn joined)

/-- Nothing is pushed. -/
theorem Taken.none {sees : Row → Row → Prop} (h : Movable fn db node) :
    Taken fn db [] node node [] sees :=
  ⟨h, ⟨.refl node, rfl⟩, rfl, fun _ => true, (map_keep_true fun _ _ => rfl).symm, fun _ _ => rfl,
    fun _ _ _ => by simp⟩

/-- The source does not take predicates. -/
theorem Taken.failed {sees : Row → Row → Prop} {e : Expression} (h : Movable fn db node)
    (hand : andVec exprs = some e) : Taken fn db exprs node node [e] sees := by
  refine ⟨h, ⟨.refl node, rfl⟩, rfl, fun _ => true, (map_keep_true fun _ _ => rfl).symm,
    fun _ _ => rfl, fun _ joined _ => ?_⟩
  rw [← admits_andVec hand]
  simp

end Sources

/-! ## Joins -/

def authors : Table := ⟨"authors", 0, [⟨"id", .integer, false, none, true, false, none⟩]⟩

def books : Table := ⟨"books", 0, [⟨"id", .integer, false, none, true, false, none⟩,
  ⟨"author", .integer, true, some .null, false, true, some "authors"⟩]⟩

/-- `SELECT * FROM authors a JOIN books b ON a.id = b.author WHERE a.id = 1` -/
def written : Node :=
  .filter (.nestedLoopJoin (.scan authors none) (.scan books none)
    (some (.equal (.column 0) (.column 2))) false) (.equal (.column 0) (.constant (.integer 1)))

end FilterPushdown
end ToyDB.Sql
