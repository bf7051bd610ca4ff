import Mathlib.Data.List.Forall2
import ToyDB.Sql.Engine.Reading
import ToyDB.Sql.Execution.Join
import ToyDB.Sql.Types.NormalForm

/-!
# The width of rows

Where the rows of the tables have as many values as the tables have columns, the rows that
a plan node yields have as many values as the node has columns.
-/
namespace ToyDB.Sql
open ToyDB.Collections

/-- What is computed from each element of a list. -/
theorem forall₂_of_mapM {ε α β : Type} {f : α → Except ε β} {l : List α} {r : List β}
    (h : l.mapM f = .ok r) : List.Forall₂ (fun a b => f a = .ok b) l r := by
  induction l generalizing r with
  | nil =>
      cases h
      exact .nil
  | cons a l ih =>
      rw [List.mapM_cons] at h
      obtain ⟨b, hb, h⟩ := bind_eq_ok.mp h
      obtain ⟨bs, hbs, h⟩ := bind_eq_ok.mp h
      cases h
      exact .cons hb (ih hbs)

theorem length_mapM {ε α β : Type} {f : α → Except ε β} {l : List α} {r : List β}
    (h : l.mapM f = .ok r) : r.length = l.length :=
  (forall₂_of_mapM h).length_eq.symm

theorem exists_of_forall₂ {α β : Type} {R : α → β → Prop} {l : List α} {l' : List β}
    (h : List.Forall₂ R l l') {b : β} (hb : b ∈ l') : ∃ a ∈ l, R a b := by
  induction h with
  | nil => cases hb
  | cons hR _ ih =>
      obtain rfl | hb := List.mem_cons.mp hb
      · exact ⟨_, List.mem_cons_self, hR⟩
      · obtain ⟨a, ha, hR⟩ := ih hb
        exact ⟨a, List.mem_cons_of_mem _ ha, hR⟩

theorem exists_of_mem_mapM {ε α β : Type} {f : α → Except ε β} {l : List α} {r : List β}
    (h : l.mapM f = .ok r) {b : β} (hb : b ∈ r) : ∃ a ∈ l, f a = .ok b :=
  exists_of_forall₂ (forall₂_of_mapM h) hb

variable {fn : Builtins} {db : OrderedMap Key Datum}

/-- What a node without sources reads has as many values as the node has columns. -/
def Node.Fits (db : OrderedMap Key Datum) : Node → Prop
  | .indexLookup table _ _ | .keyLookup table _ | .scan table _ =>
      ∀ id row, db.get (.row table.name id) = some (.row row) → row.length = table.columns.length
  | .values rows => ∀ row ∈ rows, row.length = (Node.values rows).columns
  | _ => True

/-- The rows among the items have a width. -/
def Rows.Wide (width : ℕ) (rows : Rows) : Prop := ∀ row, .ok row ∈ rows → row.length = width

namespace Rows
variable {rows : Rows} {width : ℕ}

theorem Wide.filter (h : rows.Wide width) (fn : Builtins) (predicate : Expression) :
    Wide width (rows.filter fn predicate) := by
  intro row hrow
  obtain ⟨item, hitem, hkept⟩ := List.mem_filterMap.mp hrow
  cases item with
  | error e => simp at hkept
  | ok row' =>
      dsimp only at hkept
      split at hkept
      · cases hkept
        exact h row hitem
      · cases hkept
      · cases hkept

theorem Wide.joinRow (h : rows.Wide width) (fn : Builtins) (predicate : Option Expression)
    (left : Row) : Wide (left.length + width) (joinRow fn predicate rows left) := by
  intro row hrow
  obtain ⟨item, hitem, hkept⟩ := List.mem_filterMap.mp hrow
  cases item with
  | error e => simp at hkept
  | ok right =>
      have hjoined : row = left ++ right := by
        dsimp only at hkept
        cases predicate with
        | none => simpa [eq_comm] using hkept
        | some predicate =>
            dsimp only at hkept
            split at hkept
            · simpa [eq_comm] using hkept
            · cases hkept
            · cases hkept
      rw [hjoined, List.length_append, h right hitem]

theorem wide_nestedLoopJoin {left right : Rows} {leftWidth rightWidth : ℕ}
    (hleft : left.Wide leftWidth) (hright : right.Wide rightWidth)
    (predicate : Option Expression) (outer : Bool) :
    Wide (leftWidth + rightWidth)
      (nestedLoopJoin fn left right rightWidth predicate outer) := by
  intro row hrow
  obtain ⟨item, hitem, hrow⟩ := List.mem_flatMap.mp hrow
  cases item with
  | error e => simp at hrow
  | ok first =>
      have hjoined := hright.joinRow fn predicate first
      rw [hleft first hitem] at hjoined
      dsimp only at hrow
      split_ifs at hrow
      · obtain hrow | hrow := List.mem_append.mp hrow
        · exact hjoined row hrow
        · obtain rfl : row = first ++ List.replicate rightWidth .null := by simpa using hrow
          rw [List.length_append, List.length_replicate, hleft first hitem]
      · exact hjoined row hrow

/-- The map of a hash join holds rows of the right source. -/
theorem mem_of_mem_hashRight {column : ℕ} {right : Rows} {hashed : List (Value × Row)}
    (h : hashRight column right = .ok hashed) {value : Value} {row : Row}
    (hrow : (value, row) ∈ hashed) : .ok row ∈ right := by
  induction right generalizing hashed with
  | nil =>
      cases h
      cases hrow
  | cons item right ih =>
      cases item with
      | error e => cases h
      | ok first =>
          unfold hashRight at h
          cases hv : first[column]? with
          | none =>
              rw [hv] at h
              cases h
          | some v =>
              rw [hv] at h
              cases hrest : hashRight column right with
              | error e =>
                  rw [hrest] at h
                  cases h
              | ok rest =>
                  rw [hrest] at h
                  obtain rfl := Except.ok.inj h
                  split_ifs at hrow
                  · exact List.mem_cons_of_mem _ (ih hrest hrow)
                  · obtain heq | hrow := List.mem_cons.mp hrow
                    · obtain ⟨-, rfl⟩ := Prod.mk.inj heq
                      exact List.mem_cons_self
                    · exact List.mem_cons_of_mem _ (ih hrest hrow)

theorem wide_hashJoin {left : Rows} {hashed : List (Value × Row)} {leftWidth rightWidth : ℕ}
    (hleft : left.Wide leftWidth) (hright : ∀ v row, (v, row) ∈ hashed → row.length = rightWidth)
    (leftColumn : ℕ) (outer : Bool) :
    Wide (leftWidth + rightWidth) (hashJoin left leftColumn hashed rightWidth outer) := by
  intro row hrow
  obtain ⟨item, hitem, hrow⟩ := List.mem_flatMap.mp hrow
  cases item with
  | error e => simp at hrow
  | ok first =>
      dsimp only at hrow
      cases hv : first[leftColumn]? with
      | none => simp [hv, panics] at hrow
      | some value =>
          rw [hv] at hrow
          dsimp only at hrow
          split_ifs at hrow
          · obtain rfl : row = first ++ List.replicate rightWidth .null := by simpa using hrow
            rw [List.length_append, List.length_replicate, hleft first hitem]
          · obtain ⟨entry, hentry, heq⟩ := List.mem_map.mp hrow
            obtain rfl := Except.ok.inj heq
            rw [List.length_append, hleft first hitem,
              hright entry.1 entry.2 (List.mem_filter.mp hentry).1]

theorem wide_mapRows {f : Row → Except Failure Row} (hf : ∀ row row', f row = .ok row' →
    row'.length = width) (rows : Rows) : Wide width (rows.mapRows f) := by
  intro row hrow
  obtain ⟨item, -, heq⟩ := List.mem_map.mp hrow
  cases item with
  | error e => cases heq
  | ok first => exact hf first row heq

theorem length_foldl {α β : Type} {f : List β → α → List β}
    (hf : ∀ l a, (f l a).length = l.length) (as : List α) (l : List β) :
    (as.foldl f l).length = l.length := by
  induction as generalizing l with
  | nil => rfl
  | cons a as ih => rw [List.foldl_cons, ih, hf]

theorem length_remapRow {targets : List (Option ℕ)} {row row' : Row}
    (h : remapRow targets row = .ok row') : row'.length = Node.remapSize targets := by
  unfold remapRow at h
  split_ifs at h with hlength
  · obtain rfl := Except.ok.inj h
    rw [length_foldl, List.length_replicate]
    intro remapped entry
    obtain ⟨target | target, value⟩ := entry
    · rfl
    · exact List.length_set
  · cases h

theorem wide_orderRows {key : List (Expression × Direction)} (h : rows.Wide width)
    {sorted : Rows} (hsorted : orderRows fn key rows = .ok sorted) : sorted.Wide width := by
  unfold orderRows at hsorted
  obtain ⟨keyed, hkeyed, hsorted⟩ := bind_eq_ok.mp hsorted
  obtain rfl := Except.ok.inj hsorted
  intro row hrow
  obtain ⟨entry, hentry, heq⟩ := List.mem_map.mp hrow
  obtain rfl := Except.ok.inj heq
  obtain ⟨item, hitem, hcomputed⟩ := exists_of_mem_mapM hkeyed (List.mem_mergeSort.mp hentry)
  obtain ⟨first, hfirst, hcomputed⟩ := bind_eq_ok.mp hcomputed
  obtain ⟨values, -, hentry⟩ := bind_eq_ok.mp hcomputed
  cases hentry
  exact h _ (hfirst ▸ hitem)

end Rows

/-! ## Aggregation -/

namespace Aggregator
variable {groupBy : List Expression} {aggregates : List Aggregate} {buckets buckets' : Buckets}

/-- The buckets have a value for each grouping and an accumulator for each aggregate. -/
def Shaped (groupBy : List Expression) (aggregates : List Aggregate) (buckets : Buckets) : Prop :=
  ∀ bucket accumulators, (bucket, accumulators) ∈ buckets →
    bucket.length = groupBy.length ∧ accumulators.length = aggregates.length

theorem Shaped.updateBucket (h : Shaped groupBy aggregates buckets) {bucket : List Value}
    (hbucket : bucket.length = groupBy.length) {initial : List Accumulator}
    (hinitial : initial.length = aggregates.length)
    {update : List Accumulator → Except Failure (List Accumulator)}
    (hupdate : ∀ a a', a.length = aggregates.length → update a = .ok a' →
      a'.length = aggregates.length)
    (heq : updateBucket bucket initial update buckets = .ok buckets') :
    Shaped groupBy aggregates buckets' := by
  induction buckets generalizing buckets' with
  | nil =>
      obtain ⟨a, ha, heq⟩ := bind_eq_ok.mp heq
      cases heq
      intro b accumulators hmem
      obtain ⟨rfl, rfl⟩ := Prod.mk.inj (List.mem_singleton.mp hmem)
      exact ⟨hbucket, hupdate _ _ hinitial ha⟩
  | cons entry buckets ih =>
      obtain ⟨b, accumulators⟩ := entry
      obtain ⟨hb, haccumulators⟩ := h b accumulators List.mem_cons_self
      have hrest : Shaped groupBy aggregates buckets :=
        fun b' a' hmem => h b' a' (List.mem_cons_of_mem _ hmem)
      unfold Aggregator.updateBucket at heq
      cases hcmp : cmpValues bucket b with
      | lt =>
          rw [hcmp] at heq
          obtain ⟨a, ha, heq⟩ := bind_eq_ok.mp heq
          cases heq
          intro b' a' hmem
          obtain heq | hmem := List.mem_cons.mp hmem
          · obtain ⟨rfl, rfl⟩ := Prod.mk.inj heq
            exact ⟨hbucket, hupdate _ _ hinitial ha⟩
          · exact h b' a' hmem
      | eq =>
          rw [hcmp] at heq
          obtain ⟨a, ha, heq⟩ := bind_eq_ok.mp heq
          cases heq
          intro b' a' hmem
          obtain heq | hmem := List.mem_cons.mp hmem
          · obtain ⟨rfl, rfl⟩ := Prod.mk.inj heq
            exact ⟨hb, hupdate _ _ haccumulators ha⟩
          · exact hrest b' a' hmem
      | gt =>
          rw [hcmp] at heq
          obtain ⟨rest, hrest', heq⟩ := bind_eq_ok.mp heq
          cases heq
          intro b' a' hmem
          obtain heq | hmem := List.mem_cons.mp hmem
          · obtain ⟨rfl, rfl⟩ := Prod.mk.inj heq
            exact ⟨hb, haccumulators⟩
          · exact ih hrest hrest' b' a' hmem

theorem Shaped.addRows {rows : Rows} (h : Shaped groupBy aggregates buckets)
    (heq : addRows fn groupBy aggregates rows buckets = .ok buckets') :
    Shaped groupBy aggregates buckets' := by
  induction rows generalizing buckets with
  | nil =>
      cases heq
      exact h
  | cons item rows ih =>
      cases item with
      | error e => cases heq
      | ok row =>
          obtain ⟨next, hnext, heq⟩ := bind_eq_ok.mp heq
          refine ih ?_ heq
          obtain ⟨bucket, hbucket, hnext⟩ := bind_eq_ok.mp hnext
          refine h.updateBucket (length_mapM hbucket) (List.length_map _) ?_ hnext
          intro a a' ha hupdated
          rw [length_mapM hupdated, List.length_zip, ha, Nat.min_self]

theorem wide_intoRows (h : Shaped groupBy aggregates buckets) :
    Rows.Wide (aggregates.length + groupBy.length) (intoRows fn groupBy aggregates buckets) := by
  intro row hrow
  unfold intoRows at hrow
  split_ifs at hrow with hnone
  · rw [hnone.2, length_mapM (List.mem_singleton.mp hrow).symm, List.length_map]
    rfl
  · obtain ⟨entry, hentry, heq⟩ := List.mem_map.mp hrow
    obtain ⟨values, hvalues, heq⟩ := bind_eq_ok.mp heq
    obtain ⟨hbucket, haccumulators⟩ := h entry.1 entry.2 hentry
    cases heq
    rw [List.length_append, length_mapM hvalues, hbucket, haccumulators, Nat.add_comm]

end Aggregator

/-! ## Nodes -/

theorem Node.Within.trans {plan node leaf : Node} (h : plan.Within node) (h' : node.Within leaf) :
    plan.Within leaf := by
  induction h' with
  | top => exact h
  | source _ hs ih => exact ih.source hs

theorem wide_scan {table : Table} {filter : Option Expression}
    (h : (Node.scan table filter).Fits db) {rows : Rows}
    (hrows : (Local.scan fn table.name filter).eval db = .ok rows) :
    rows.Wide table.columns.length := by
  have hall : Rows.Wide table.columns.length
      ((db.scan (Key.isRowOf table.name)).map decodeRow) := by
    intro row hrow
    obtain ⟨⟨key, datum⟩, hentry, heq⟩ := List.mem_map.mp hrow
    obtain ⟨hget, hkey⟩ := OrderedMap.mem_scan.mp hentry
    cases key with
    | table | index => cases hkey
    | row t id =>
        obtain rfl : t = table.name := by simpa [Key.isRowOf] using hkey
        cases datum with
        | table | ids => cases heq
        | row row' =>
            cases heq
            exact h id row hget
  cases filter with
  | none =>
      rw [Local.eval_scan_none] at hrows
      cases hrows
      exact hall
  | some filter =>
      rw [Local.eval_scan_some] at hrows
      cases hrows
      exact hall.filter fn filter

theorem wide_get {table : Table} (keys : List Value) {ids : List Value}
    (h : (Node.keyLookup table keys).Fits db)
    {rows : List Row} (hrows : (Local.get table.name ids).eval db = .ok rows) :
    Rows.Wide table.columns.length (rows.map .ok) := by
  intro row hrow
  obtain ⟨row', hmem, heq⟩ := List.mem_map.mp hrow
  obtain rfl := Except.ok.inj heq
  obtain ⟨id, -, hget⟩ := (Local.reads_get.of_eval hrows row').mp hmem
  exact h _ row' hget

/-- The rows that a node yields have a value for each of its columns. -/
theorem wide_executeNode (node : Node) : ∀ rows, (∀ leaf, node.Within leaf → leaf.Fits db) →
    executeNode fn db node = .ok rows → rows.Wide node.columns := by
  induction node using Node.sources_induction with
  | h node ih =>
      intro rows hfits hrows
      have hsource : ∀ source ∈ node.sources, ∀ items, executeNode fn db source = .ok items →
          items.Wide source.columns := by
        intro source hs items hitems
        exact ih source hs items (fun leaf hleaf => hfits leaf ((Node.Within.top.source hs).trans hleaf)) hitems
      cases node with
      | aggregate source groupBy aggregates =>
          obtain ⟨items, hitems, hrows⟩ := bind_eq_ok.mp hrows
          obtain ⟨buckets, hbuckets, hrows⟩ := bind_eq_ok.mp hrows
          cases hrows
          have hnone : Aggregator.Shaped groupBy aggregates [] := by
            intro b a h
            cases h
          exact Aggregator.wide_intoRows (hnone.addRows hbuckets)
      | filter source predicate =>
          obtain ⟨items, hitems, hrows⟩ := bind_eq_ok.mp hrows
          cases hrows
          exact (hsource source (by simp [Node.sources]) items hitems).filter fn predicate
      | hashJoin left leftColumn right rightColumn outer =>
          obtain ⟨leftRows, hleft, hrows⟩ := bind_eq_ok.mp hrows
          obtain ⟨rightRows, hright, hrows⟩ := bind_eq_ok.mp hrows
          obtain ⟨hashed, hhashed, hrows⟩ := bind_eq_ok.mp hrows
          cases hrows
          apply Rows.wide_hashJoin (hsource left (by simp [Node.sources]) _ hleft)
          intro v row hrow
          exact hsource right (by simp [Node.sources]) _ hright row
            (Rows.mem_of_mem_hashRight hhashed hrow)
      | indexLookup table column values =>
          unfold executeNode at hrows
          cases hc : table.columns[column]? with
          | none =>
              rw [hc] at hrows
              cases hrows
          | some c =>
              rw [hc] at hrows
              obtain ⟨ids, hids, hrows⟩ := bind_eq_ok.mp hrows
              obtain ⟨found, hfound, hrows⟩ := bind_eq_ok.mp hrows
              cases hrows
              have h : (Node.indexLookup table column values).Fits db := hfits _ .top
              exact wide_get values h hfound
      | keyLookup table keys =>
          obtain ⟨found, hfound, hrows⟩ := bind_eq_ok.mp hrows
          cases hrows
          exact wide_get keys (hfits _ .top) hfound
      | limit source n =>
          obtain ⟨items, hitems, hrows⟩ := bind_eq_ok.mp hrows
          cases hrows
          intro row hrow
          exact hsource source (by simp [Node.sources]) items hitems row (List.mem_of_mem_take hrow)
      | nestedLoopJoin left right predicate outer =>
          obtain ⟨leftRows, hleft, hrows⟩ := bind_eq_ok.mp hrows
          obtain ⟨rightRows, hright, hrows⟩ := bind_eq_ok.mp hrows
          cases hrows
          exact Rows.wide_nestedLoopJoin (hsource left (by simp [Node.sources]) _ hleft)
            (hsource right (by simp [Node.sources]) _ hright) predicate outer
      | nothing columns =>
          cases hrows
          intro row hrow
          cases hrow
      | offset source n =>
          obtain ⟨items, hitems, hrows⟩ := bind_eq_ok.mp hrows
          cases hrows
          intro row hrow
          exact hsource source (by simp [Node.sources]) items hitems row (List.mem_of_mem_drop hrow)
      | order source key =>
          obtain ⟨items, hitems, hrows⟩ := bind_eq_ok.mp hrows
          exact Rows.wide_orderRows (hsource source (by simp [Node.sources]) items hitems) hrows
      | projection source expressions aliases =>
          obtain ⟨items, hitems, hrows⟩ := bind_eq_ok.mp hrows
          cases hrows
          exact Rows.wide_mapRows (fun row row' h => length_mapM h) items
      | remap source targets =>
          obtain ⟨items, hitems, hrows⟩ := bind_eq_ok.mp hrows
          cases hrows
          exact Rows.wide_mapRows (fun row row' h => Rows.length_remapRow h) items
      | scan table filter => exact wide_scan (hfits _ .top) hrows
      | values lists =>
          cases hrows
          intro row hrow
          obtain ⟨list, hlist, heq⟩ := List.mem_map.mp hrow
          have h : (Node.values lists).Fits db := hfits _ .top
          rw [length_mapM heq, h list hlist]

end ToyDB.Sql
