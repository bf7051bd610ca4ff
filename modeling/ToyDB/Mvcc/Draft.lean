import ToyDB.Mvcc.Committed
import ToyDB.Mvcc.Script

/-!
# Drafts

A transaction at work has a draft: the entries that it sees and its own writes, which lie
over the state that it began with. `after` states what holds of the result and the draft
once a script ends without an error.
-/
namespace ToyDB.Mvcc
open ToyDB.Collections

structure Draft (K V : Type) [LinearOrder K] where
  view : OrderedMap K V
  writes : K → Option (Option V)

namespace Draft
variable {K V : Type} [LinearOrder K] {S : K → Option V} {d : Draft K V}

def put (d : Draft K V) (key : K) (value : Option V) : Draft K V where
  view :=
    match value with
    | some x => d.view.insert key x
    | none => d.view.erase key
  writes := Function.update d.writes key (some value)

theorem get_put (d : Draft K V) (key k : K) (value : Option V) :
    (d.put key value).view.get k = if k = key then value else d.view.get k := by
  cases value with
  | some x => exact OrderedMap.get_insert _ _ _ _
  | none => exact OrderedMap.get_erase _ _ _

theorem writes_put (d : Draft K V) (key k : K) (value : Option V) :
    (d.put key value).writes k = if k = key then some value else d.writes k :=
  Function.update_apply _ _ _ _

/-- The draft lies over the state. -/
def Over (S : K → Option V) (d : Draft K V) : Prop := ∀ k, d.view.get k = overlay S d.writes k

theorem Over.put (h : d.Over S) (key : K) (value : Option V) : (d.put key value).Over S := by
  intro k
  rw [get_put, overlay, writes_put]
  split_ifs
  · rfl
  · exact h k

/-- A draft is determined by its writes. -/
theorem Over.unique (h : d.Over S) {d' : Draft K V} (h' : d'.Over S) (hw : d.writes = d'.writes) :
    d = d' := by
  have hview : d.view = d'.view := OrderedMap.ext_get fun k => by rw [h k, h' k, hw]
  obtain ⟨view, writes⟩ := d
  obtain ⟨view', writes'⟩ := d'
  exact (Draft.mk.injEq ..).mpr ⟨hview, hw⟩

end Draft

namespace Script
variable {K V α β : Type} [LinearOrder K] {Q Q' : α → Draft K V → Prop} {d : Draft K V}

/-- What holds of the result and the draft if the script ends without an error. -/
def after (Q : α → Draft K V → Prop) : Script K V α → Draft K V → Prop
  | done (.ok a), d => Q a d
  | done (.error _), _ => True
  | get key next, d => (next (d.view.get key)).after Q d
  | scan range next, d => (next (d.view.scan range)).after Q d
  | write key value next, d => next.after Q (d.put key value)

theorem after_mono {x : Script K V α} (h : x.after Q d) (hQ : ∀ a d, Q a d → Q' a d) :
    x.after Q' d := by
  induction x generalizing d with
  | done result =>
      cases result with
      | ok a => exact hQ a d h
      | error c => trivial
  | get key next ih | scan range next ih => exact ih _ h
  | write key value next ih => exact ih h

theorem after_bind {x : Script K V α} {f : α → Script K V β} {R : β → Draft K V → Prop}
    (h : x.after (fun a d => (f a).after R d) d) : (x >>= f).after R d := by
  change (Script.bind x f).after R d
  induction x generalizing d with
  | done result =>
      cases result with
      | ok a => exact h
      | error c => trivial
  | get key next ih | scan range next ih => exact ih _ h
  | write key value next ih => exact ih h

/-- What holds after a script holds of what it computes on the entries that it sees. -/
theorem exec_after {x : Script K V α} (h : x.after Q d) {a : α} {m : OrderedMap K V}
    (hx : x.exec d.view = (.ok a, m)) : ∃ writes, Q a ⟨m, writes⟩ := by
  induction x generalizing d with
  | done result =>
      obtain ⟨rfl, rfl⟩ := Prod.mk.inj hx
      exact ⟨d.writes, h⟩
  | get key next ih | scan range next ih => exact ih _ h hx
  | write key value next ih => cases value <;> exact ih h hx

/-- A script whose results and drafts satisfy the postcondition, if the precondition
holds before. -/
def Ensures (P : Draft K V → Prop) (x : Script K V α) (Q : α → Draft K V → Prop) : Prop :=
  ∀ d, P d → x.after Q d

variable {P P' : Draft K V → Prop} {x : Script K V α}

theorem ensures_pure {a : α} (h : ∀ d, P d → Q a d) : Ensures P (pure a : Script K V α) Q := h

theorem ensures_set {key : K} {value : V} {Q : Unit → Draft K V → Prop}
    (h : ∀ d, P d → Q () (d.put key (some value))) : Ensures P (set key value) Q := h

theorem ensures_delete {key : K} {Q : Unit → Draft K V → Prop}
    (h : ∀ d, P d → Q () (d.put key none)) : Ensures P (delete key) Q := h

theorem Ensures.bind {f : α → Script K V β} {R : β → Draft K V → Prop} (hx : Ensures P x Q)
    (hf : ∀ a, Ensures (Q a) (f a) R) : Ensures P (x >>= f) R :=
  fun d hd => after_bind (after_mono (hx d hd) fun a d' h => hf a d' h)

theorem Ensures.mono (h : Ensures P x Q) (hP : ∀ d, P' d → P d) (hQ : ∀ a d, Q a d → Q' a d) :
    Ensures P' x Q' :=
  fun d hd => after_mono (h d (hP d hd)) hQ

theorem Ensures.and {Q' : α → Draft K V → Prop} (h : Ensures P x Q) (h' : Ensures P' x Q') :
    Ensures (fun d => P d ∧ P' d) x fun a d => Q a d ∧ Q' a d := by
  intro d ⟨hd, hd'⟩
  have hx := h d hd
  have hx' := h' d hd'
  clear h h' hd hd'
  induction x generalizing d with
  | done result =>
      cases result with
      | ok a => exact ⟨hx, hx'⟩
      | error c => trivial
  | get key next ih | scan range next ih => exact ih _ d hx hx'
  | write key value next ih => exact ih _ hx hx'

/-- A loop keeps an invariant that may mention the items that remain. -/
theorem ensures_forM {f : β → Script K V Unit} {I : List β → Draft K V → Prop} {l : List β}
    (h : ∀ b l, Ensures (I (b :: l)) (f b) fun _ => I l) :
    Ensures (I l) (l.forM f) fun _ => I [] := by
  induction l with
  | nil => exact fun d hd => hd
  | cons b l ih =>
      change Ensures (I (b :: l)) (f b >>= fun _ => l.forM f) _
      exact (h b l).bind fun _ => ih

/-- A script that only reads; the relation holds of the entries that it sees and its
result. -/
def Reads (x : Script K V α) (R : OrderedMap K V → α → Prop) : Prop :=
  ∀ d, x.after (fun a d' => d' = d ∧ R d.view a) d

section Reads
variable {R : OrderedMap K V → α → Prop} {R' : OrderedMap K V → β → Prop}

theorem reads_pure {a : α} (h : ∀ m, R m a) : Reads (pure a) R := fun d => ⟨rfl, h d.view⟩

theorem reads_fail {c : Failure} : Reads (fail c) R := fun _ => trivial

theorem reads_read {key : K} {R : OrderedMap K V → Option V → Prop}
    (h : ∀ m : OrderedMap K V, R m (m.get key)) : Reads (read key) R := fun d => ⟨rfl, h d.view⟩

theorem reads_entries {range : K → Bool} {R : OrderedMap K V → List (K × V) → Prop}
    (h : ∀ m : OrderedMap K V, R m (m.scan range)) : Reads (entries range) R :=
  fun d => ⟨rfl, h d.view⟩

theorem Reads.bind {x : Script K V α} {f : α → Script K V β} (hx : Reads x R)
    (hf : ∀ a, Reads (f a) fun m b => R m a → R' m b) : Reads (x >>= f) R' := by
  intro d
  refine after_bind (after_mono (hx d) ?_)
  rintro a _ ⟨rfl, ha⟩
  exact after_mono (hf a _) fun b d' hb => ⟨hb.1, hb.2 ha⟩

theorem Reads.mono {R' : OrderedMap K V → α → Prop} {x : Script K V α} (h : Reads x R)
    (hR : ∀ m a, R m a → R' m a) : Reads x R' :=
  fun d => after_mono (h d) fun a _ ha => ⟨ha.1, hR _ a ha.2⟩

theorem reads_forM {f : β → Script K V Unit} {R : OrderedMap K V → β → Prop} {l : List β}
    (h : ∀ b ∈ l, Reads (f b) fun m _ => R m b) :
    Reads (l.forM f) fun m _ => ∀ b ∈ l, R m b := by
  induction l with
  | nil => exact reads_pure fun m b hb => nomatch hb
  | cons b l ih =>
      refine Reads.bind (h b List.mem_cons_self) fun _ => ?_
      refine (ih fun b' hb' => h b' (List.mem_cons_of_mem _ hb')).mono fun m _ hl hb b' hb' => ?_
      obtain rfl | hb' := List.mem_cons.mp hb'
      · exact hb
      · exact hl b' hb'

/-- The relation holds of the entries that a script is run on and its result. -/
theorem Reads.of_eval {x : Script K V α} (h : Reads x R) {m : OrderedMap K V} {a : α}
    (hx : x.eval m = .ok a) : R m a := by
  have hexec : x.exec m = (.ok a, (x.exec m).2) := Prod.ext hx rfl
  obtain ⟨writes, -, hR⟩ := exec_after (h ⟨m, fun _ => none⟩) hexec
  exact hR

theorem Reads.ensures {x : Script K V α} (h : Reads x R) (hQ : ∀ a d, P d → R d.view a → Q a d) :
    Ensures P x Q := by
  intro d hd
  refine after_mono (h d) ?_
  rintro a _ ⟨rfl, ha⟩
  exact hQ a _ hd ha

end Reads

/-- A script does not look at the state below its draft. -/
theorem ensures_over (S : K → Option V) (x : Script K V α) :
    Ensures (Draft.Over S) x fun _ => Draft.Over S := by
  intro d hd
  induction x generalizing d with
  | done result => cases result with
      | ok a => exact hd
      | error c => trivial
  | get key next ih | scan range next ih => exact ih _ d hd
  | write key value next ih => exact ih _ (hd.put key value)

end Script
end ToyDB.Mvcc
