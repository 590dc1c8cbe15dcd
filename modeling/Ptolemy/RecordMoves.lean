/-
# `regraft` and `reattach_as` on records

The two functions work on any table of records: which field names the parent of
a record, which one its own index, and which fields the children of a removed
node inherit are arguments.  A field may be missing, and reading it raises then.

On the tree they do what the same functions do on the entities of a device, for
the table of entities with the same parents; that is where the laws of the moves
come from.
-/
import Ptolemy.EntityMoves

namespace RecordTree

open Entities (Tree KeyOrder walkTo childrenIds renameUnder Under)

/-! ## The functions -/

/-- A record, by field. -/
abbrev Fields : Type := Dict String Value

/-- The table: the records by their index. -/
abbrev Items : Type := Dict Value Fields

/-- `items[k]`. -/
def recordAt (items : Items) (k : Value) : Except Exn Fields :=
  match items.lookup k with
  | none => .error (.keyError k.toText)
  | some r => .ok r

/-- `r[field]`. -/
def fieldAt (r : Fields) (field : String) : Except Exn Value :=
  match r.lookup field with
  | none => .error (.keyError field)
  | some v => .ok v

/-- The fields of the removed record that are to be inherited, as far as it has them. -/
def fieldsToInherit (inherit_fields : List String) (removed : Fields) : Fields :=
  inherit_fields.foldl (fun d i => match removed.lookup i with
    | some v => AList.insert i v d
    | none => d) ∅

/-- `items[c][i] = v`, after the message that is logged has read `items[c][i]`. -/
def inheritField (r : Fields) (p : String × Value) : Except Exn Fields := do
  let _ ← fieldAt r p.1
  pure (AList.insert p.1 p.2 r)

/-- One child of the node that is removed goes to the parent of that node. -/
def regraftChild (fo : IterOrder) (parent_field : String) (node parentId : Value)
    (inherited : Fields) (parented : Bool) (s : Tree × Items) (c : Value) :
    Except Exn (Tree × Items) :=
  match s.2.lookup c with
  | none => pure s
  | some child => do
    let child ← (fo.order inherited.items).foldlM inheritField
      (AList.insert parent_field parentId child)
    let sub := (((walkTo node s.1).getD .empty).get c).getD .empty
    let topology := if parented then s.1.modify parentId (fun t => t.set c sub) else s.1
    pure (topology.modify node (fun t => t.del c), AList.insert c child s.2)

/-- `regraft`. -/
def regraft (o : KeyOrder) (fo : IterOrder) (nodeToRemove : Value) (topology : Tree)
    (items : Items) (parent_field : String) (inherit_fields : List String) :
    Except Exn (Tree × Items) := do
  let removed ← recordAt items nodeToRemove
  let parentId ← fieldAt removed parent_field
  let parented := (walkTo parentId topology).isSome
  let s ← (childrenIds o nodeToRemove topology).foldlM (regraftChild fo parent_field nodeToRemove
    parentId (fieldsToInherit inherit_fields removed) parented) (topology, items)
  if parented then pure (s.1.modify parentId (fun t => t.del nodeToRemove), s.2) else pure s

/-- A child is told the new index of its parent. -/
def reassignChild (parent_field : String) (newNode : Value) (items : Items) (c : Value) :
    Except Exn Items := do
  let child ← recordAt items c
  pure (AList.insert c (AList.insert parent_field newNode child) items)

/-- `reattach_as`. -/
def reattachAs (o : KeyOrder) (node newNode : Value) (topology : Tree) (items : Items)
    (parent_field index_field : String) : Except Exn (Tree × Items) := do
  let d ← recordAt items node
  let parentId ← fieldAt d parent_field
  let topology := renameUnder parentId node newNode topology
  let items ← (childrenIds o node topology).foldlM (reassignChild parent_field newNode) items
  let d ← recordAt items node
  let items := AList.erase node (AList.insert newNode (AList.insert index_field newNode d) items)
  -- the message that is logged reads the new record
  let _ ← recordAt items newNode
  pure (topology, items)

theorem recordAt_eq_ok {items : Items} {k : Value} {r : Fields} :
    recordAt items k = .ok r ↔ items.lookup k = some r := by
  unfold recordAt
  cases items.lookup k <;> simp

theorem fieldAt_eq_ok {r : Fields} {f : String} {v : Value} :
    fieldAt r f = .ok v ↔ r.lookup f = some v := by
  unfold fieldAt
  cases r.lookup f <;> simp

/-! ## Inherited fields -/

theorem lookup_fieldsToInherit (inherit_fields : List String) (removed : Fields) (f : String) :
    (fieldsToInherit inherit_fields removed).lookup f
      = if f ∈ inherit_fields then removed.lookup f else none := by
  have hfold : ∀ d : Fields, (inherit_fields.foldl (fun d i => match removed.lookup i with
      | some v => AList.insert i v d
      | none => d) d).lookup f
        = if f ∈ inherit_fields then (removed.lookup f).or (d.lookup f) else d.lookup f := by
    induction inherit_fields with
    | nil => exact fun d => by rw [List.foldl_nil, if_neg List.not_mem_nil]
    | cons i l ih =>
      intro d
      rw [List.foldl_cons, ih]
      by_cases hi : f = i
      · subst hi
        rw [if_pos List.mem_cons_self]
        cases removed.lookup f with
        | none => simp
        | some v => simp
      · have hd : (match removed.lookup i with
            | some v => AList.insert i v d
            | none => d).lookup f = d.lookup f := by
          cases removed.lookup i with
          | none => rfl
          | some v => exact AList.lookup_insert_ne hi
        simp only [hd, List.mem_cons, hi, false_or]
  rw [fieldsToInherit, hfold, AList.lookup_empty, Option.or_none]

/-- Inheriting fields that the record has. -/
theorem foldlM_inheritField (fo : IterOrder) {inherited r : Fields}
    (hcarry : ∀ i ∈ inherited, i ∈ r) :
    ∃ r', (fo.order inherited.items).foldlM inheritField r = .ok r' ∧
      ∀ f, r'.lookup f = (inherited.lookup f).or (r.lookup f) := by
  have hrun : ∀ (l : List (String × Value)) (r : Fields), (∀ p ∈ l, p.1 ∈ r) →
      l.foldlM inheritField r = .ok (l.foldl (fun d p => AList.insert p.1 p.2 d) r) := by
    intro l
    induction l with
    | nil => exact fun r _ => rfl
    | cons p l ih =>
      intro r hr
      obtain ⟨v, hv⟩ := Dict.mem_iff_lookup.mp (hr p List.mem_cons_self)
      rw [List.foldlM_cons, inheritField, fieldAt_eq_ok.mpr hv]
      exact ih _ (fun q hq => (AList.mem_insert _).mpr (Or.inr (hr q (List.mem_cons_of_mem p hq))))
  have hmem : ∀ f v, (f, v) ∈ fo.order inherited.items ↔ inherited.lookup f = some v := fun f v =>
    fo.mem_order.trans Dict.mem_items
  refine ⟨_, hrun _ r (fun p hp => hcarry p.1
    (Dict.mem_iff_lookup.mpr ⟨p.2, (hmem p.1 p.2).mp hp⟩)), fun f => ?_⟩
  rcases Dict.lookup_foldl_insert_cases (fo.order inherited.items) r f with
    ⟨v, hv, heq⟩ | ⟨hnone, heq⟩
  · rw [heq, (hmem f v).mp hv, Option.some_or]
  · have hf : inherited.lookup f = none := by
      cases hf : inherited.lookup f with
      | none => rfl
      | some v => exact absurd ((hmem f v).mpr hf) (hnone v)
    rw [heq, hf, Option.none_or]

/-! ## The moves of the tree -/

/-- An entity of which only the parent matters. -/
def shadow (parent : Value) : Entities.Entity where
  parentIndex := parent
  type := ""
  description := ""
  serial := none
  relativePosition := .none
  swRev := none
  fwRev := none
  model := none
  physicalIndex := .none

/-- The table of entities with the same indices. -/
def view (q : Value) (items : Items) : Entities.Items := Dict.mapVals (fun _ => shadow q) items

theorem mem_view {q : Value} {items : Items} {k : Value} : k ∈ view q items ↔ k ∈ items := by
  rw [Dict.mem_iff_lookup, Dict.mem_iff_lookup, view, Dict.lookup_mapVals]
  simp

/-- **The children of a removed node**: the tree is what becomes of it when entities are moved, and
every child in the table has got the new parent and what it inherits. -/
theorem foldlM_regraftChild (fo : IterOrder) (parent_field : String) {n q : Value}
    {inherited : Fields} (parented : Bool) {cs : List Value} (hcs : cs.Nodup) {t : Tree}
    {items : Items} {its : Entities.Items} (hits : ∀ k, k ∈ its ↔ k ∈ items)
    (hcarry : ∀ c ∈ cs, ∀ r, items.lookup c = some r →
      ∀ i ∈ inherited, i ∈ AList.insert parent_field q r) :
    ∃ items', cs.foldlM (regraftChild fo parent_field n q inherited parented) (t, items)
        = .ok ((cs.foldl (Entities.regraftChild (fun _ d => d) n (shadow q) parented) (t, its)).1,
          items') ∧
      (∀ k, k ∈ items' ↔ k ∈ items) ∧ (∀ k, k ∉ cs → items'.lookup k = items.lookup k) ∧
      ∀ k ∈ cs, ∀ r, items.lookup k = some r → ∃ r', items'.lookup k = some r' ∧
        ∀ f, r'.lookup f = (inherited.lookup f).or ((AList.insert parent_field q r).lookup f) := by
  induction cs generalizing t items its with
  | nil => exact ⟨items, rfl, fun _ => Iff.rfl, fun _ _ => rfl, fun k hk => absurd hk List.not_mem_nil⟩
  | cons c cs ih =>
    obtain ⟨hc, hcs⟩ := List.nodup_cons.mp hcs
    rw [List.foldlM_cons, List.foldl_cons]
    cases hchild : items.lookup c with
    | none =>
      -- a child that is not in the table stays where it is
      have hnone : its.lookup c = none := by
        rw [AList.lookup_eq_none, hits]
        exact AList.lookup_eq_none.mp hchild
      have hfirst : regraftChild fo parent_field n q inherited parented (t, items) c
          = .ok (t, items) := by
        simp only [regraftChild, hchild]
        rfl
      have hview : Entities.regraftChild (fun _ d => d) n (shadow q) parented (t, its) c
          = (t, its) := by
        simp only [Entities.regraftChild, hnone]
      rw [hfirst, hview, Except.ok_bind]
      obtain ⟨items', hrun, hmem, hother, hmoved⟩ := ih hcs hits
        (fun k hk => hcarry k (List.mem_cons_of_mem c hk))
      refine ⟨items', hrun, hmem, fun k hk => hother k (fun hc => hk (List.mem_cons_of_mem c hc)),
        fun k hk r hr => ?_⟩
      rcases List.mem_cons.mp hk with rfl | hk
      · rw [hchild] at hr
        cases hr
      · exact hmoved k hk r hr
    | some child =>
      obtain ⟨e, he⟩ := Dict.mem_iff_lookup.mp
        ((hits c).mpr (Dict.mem_iff_lookup.mpr ⟨child, hchild⟩))
      obtain ⟨child', hinherit, hchild'⟩ := foldlM_inheritField fo
        (hcarry c List.mem_cons_self child hchild)
      have hfirst : ∃ t₁, regraftChild fo parent_field n q inherited parented (t, items) c
            = .ok (t₁, AList.insert c child' items) ∧
          (Entities.regraftChild (fun _ d => d) n (shadow q) parented (t, its) c).1 = t₁ := by
        simp only [regraftChild, Entities.regraftChild, hchild, he, hinherit, Except.ok_bind]
        exact ⟨_, rfl, rfl⟩
      obtain ⟨t₁, hfirst, hview⟩ := hfirst
      have hits' : ∀ k, k ∈ (Entities.regraftChild (fun _ d => d) n (shadow q) parented
          (t, its) c).2 ↔ k ∈ AList.insert c child' items := by
        intro k
        rw [Dict.mem_iff_lookup, Entities.regraftChild_items, AList.mem_insert, ← hits k,
          Dict.mem_iff_lookup]
        by_cases hk : k = c
        · subst hk
          simp [he]
        · simp [hk]
      rw [hfirst, Except.ok_bind]
      obtain ⟨items', hrun, hmem, hother, hmoved⟩ := ih (t := t₁) hcs hits' (fun k hk r hr => by
        have hkc : k ≠ c := fun heq => hc (heq ▸ hk)
        rw [AList.lookup_insert_ne hkc] at hr
        exact hcarry k (List.mem_cons_of_mem c hk) r hr)
      refine ⟨items', ?_, fun k => ?_, fun k hk => ?_, fun k hk r hr => ?_⟩
      · rw [hrun, ← hview]
      · rw [hmem, AList.mem_insert, or_iff_right_of_imp]
        rintro rfl
        exact Dict.mem_iff_lookup.mpr ⟨child, hchild⟩
      · obtain ⟨hkc, hk⟩ := not_or.mp (fun h => hk (List.mem_cons.mpr h))
        rw [hother k hk, AList.lookup_insert_ne hkc]
      · rcases List.mem_cons.mp hk with rfl | hk
        · rw [hchild] at hr
          cases hr
          exact ⟨child', by rw [hother k hc, AList.lookup_insert], hchild'⟩
        · have hkc : k ≠ c := fun heq => hc (heq ▸ hk)
          exact hmoved k hk r (by rw [AList.lookup_insert_ne hkc, hr])

/-! ## `regraft` -/

/-- No node of the tree occurs twice, and each one that is not at the top is under the parent that
its record names. -/
structure Agrees (parent_field : String) (t : Tree) (items : Items) : Prop where
  nodup : t.nodes.Nodup
  parent : ∀ q k, Under t q k → ∃ r, items.lookup k = some r ∧ r.lookup parent_field = some q

/-- The node `n`, which was under `q`, has been removed: what was under it is under `q`, in the tree
and in the table, with the fields of its record that are inherited; nothing else has changed. -/
structure Grafted (parent_field : String) (inherit_fields : List String) (n q : Value)
    (removed : Fields) (t t' : Tree) (items items' : Items) : Prop where
  links : ∀ p k, (p, k) ∈ t'.links none ↔
    ((p, k) ∈ t.links none ∧ p ≠ some n ∧ k ≠ n) ∨ (p = some q ∧ Under t n k)
  child : ∀ k r, Under t n k → items.lookup k = some r → ∃ r', items'.lookup k = some r' ∧
    ∀ f, r'.lookup f = if f ∈ inherit_fields ∧ f ∈ removed then removed.lookup f
      else if f = parent_field then some q else r.lookup f
  other : ∀ k, ¬ Under t n k → items'.lookup k = items.lookup k
  agrees : Agrees parent_field t' (AList.erase n items')

/-- Removing a node that is not at the top, whose children are in the table. -/
theorem links_of_regrafted {n q : Value} {its : Entities.Items} {t t' : Tree}
    (h : Entities.Regrafted n q its t t') (hnodup : t.nodes.Nodup) (hq : Under t q n)
    (hall : ∀ k, Under t n k → k ∈ its) (p : Option Value) (k : Value) :
    (p, k) ∈ t'.links none ↔
      ((p, k) ∈ t.links none ∧ p ≠ some n ∧ k ≠ n) ∨ (p = some q ∧ Under t n k) := by
  constructor
  · intro hk
    rcases h.source p k hk with ⟨hold, hgone, hself⟩ | ⟨hp, hunder, -, -⟩
    · refine Or.inl ⟨hold, ?_, ?_⟩
      · rintro rfl
        exact hgone ⟨rfl, hall k hold⟩
      · rintro rfl
        exact hself ⟨Forest.links_unique hnodup hold hq, rfl⟩
    · exact Or.inr ⟨hp, hunder⟩
  · rintro (⟨hold, hp, hk⟩ | ⟨rfl, hunder⟩)
    · exact h.keep hq hall p k hold hp hk
    · exact h.gain hq hall k hunder

/-- **`regraft`** of a node that is not at the top removes just that node, and keeps the tree and the
table in agreement. -/
theorem regraft_grafted (o : KeyOrder) (fo : IterOrder) {parent_field : String}
    {inherit_fields : List String} {n q : Value} {removed : Fields} {t : Tree} {items : Items}
    (h : Agrees parent_field t items) (hq : Under t q n) (hn : items.lookup n = some removed)
    (hcarry : ∀ k r, Under t n k → items.lookup k = some r →
      ∀ i ∈ inherit_fields, i ∈ removed → i ∈ r) :
    ∃ t' items', regraft o fo n t items parent_field inherit_fields = .ok (t', items') ∧
      Grafted parent_field inherit_fields n q removed t t' items items' := by
  obtain ⟨removed', hn', hparent⟩ := h.parent q n hq
  obtain rfl : removed' = removed := Option.some.inj (hn'.symm.trans hn)
  have hchildren : ∀ k, Under t n k → k ∈ items := fun k hk =>
    Dict.mem_iff_lookup.mpr ((h.parent n k hk).imp fun _ hr => hr.1)
  have hcs := Entities.nodup_children h.nodup n o
  have hmem : ∀ c, c ∈ childrenIds o n t ↔ Under t n c := fun c =>
    Entities.mem_children h.nodup o
  have hshadow : (view q items).lookup n = some (shadow q) := by
    rw [view, Dict.lookup_mapVals, hn, Option.map_some]
  -- the tree is the one that the same move makes of the entities
  obtain ⟨t', its', hview, hregrafted, -⟩ := Entities.regraft_spec o (fun _ d => d) h.nodup hshadow
  have hcarried : ∀ c ∈ childrenIds o n t, ∀ r, items.lookup c = some r →
      ∀ i ∈ fieldsToInherit inherit_fields removed', i ∈ AList.insert parent_field q r := by
    intro c hc r hr i hi
    obtain ⟨v, hv⟩ := Dict.mem_iff_lookup.mp hi
    rw [lookup_fieldsToInherit] at hv
    split_ifs at hv with hin
    exact (AList.mem_insert _).mpr (Or.inr (hcarry c r ((hmem c).mp hc) hr i hin
      (Dict.mem_iff_lookup.mpr ⟨v, hv⟩)))
  obtain ⟨items', hrun, -, hother, hmoved⟩ := foldlM_regraftChild fo parent_field (n := n)
    (walkTo q t).isSome hcs (t := t) (fun k => mem_view (q := q)) hcarried
  have hresult : regraft o fo n t items parent_field inherit_fields = .ok (t', items') := by
    rw [Entities.regraft, Entities.itemAt_eq_ok.mpr hshadow, Except.ok_bind] at hview
    rw [regraft, recordAt_eq_ok.mpr hn, Except.ok_bind, fieldAt_eq_ok.mpr hparent, Except.ok_bind]
    simp only [hrun, Except.ok_bind]
    have hq' : (shadow q).parentIndex = q := rfl
    simp only [hq'] at hview
    by_cases hparented : (walkTo q t).isSome = true
    · simp only [if_pos hparented] at hview ⊢
      obtain ⟨ht', -⟩ := Prod.mk.inj (Except.ok.inj hview)
      exact congrArg (fun t => Except.ok (t, items')) ht'
    · simp only [if_neg hparented] at hview ⊢
      have ht' := congrArg Prod.fst (Except.ok.inj hview)
      exact congrArg (fun t => Except.ok (t, items')) ht'
  have hlinks := links_of_regrafted hregrafted h.nodup hq (fun k hk => mem_view.mpr (hchildren k hk))
  have hchild : ∀ k r, Under t n k → items.lookup k = some r → ∃ r', items'.lookup k = some r' ∧
      ∀ f, r'.lookup f = if f ∈ inherit_fields ∧ f ∈ removed' then removed'.lookup f
        else if f = parent_field then some q else r.lookup f := by
    intro k r hk hr
    obtain ⟨r', hr', hfields⟩ := hmoved k ((hmem k).mpr hk) r hr
    refine ⟨r', hr', fun f => ?_⟩
    rw [hfields f, lookup_fieldsToInherit, Dict.lookup_insert_eq]
    by_cases hf : f ∈ inherit_fields ∧ f ∈ removed'
    · obtain ⟨v, hv⟩ := Dict.mem_iff_lookup.mp hf.2
      rw [if_pos hf, if_pos hf.1, hv, Option.some_or]
    · have hnone : (if f ∈ inherit_fields then removed'.lookup f else none) = none := by
        split_ifs with hin
        · exact AList.lookup_eq_none.mpr (fun hc => hf ⟨hin, hc⟩)
        · rfl
      rw [hnone, Option.none_or, if_neg hf]
  have hother' : ∀ k, ¬ Under t n k → items'.lookup k = items.lookup k := fun k hk =>
    hother k (fun hc => hk ((hmem k).mp hc))
  refine ⟨t', items', hresult, hlinks, hchild, hother', hregrafted.nodup, fun p k hk => ?_⟩
  rcases (hlinks (some p) k).mp hk with ⟨hold, hp, hkn⟩ | ⟨hp, hunder⟩
  · obtain ⟨r, hr, hrp⟩ := h.parent p k hold
    have hnot : ¬ Under t n k := fun hc => hp (congrArg some (Under.unique h.nodup hold hc))
    exact ⟨r, by rw [Dict.lookup_erase_eq, if_neg hkn, hother' k hnot, hr], hrp⟩
  · obtain ⟨r, hr, -⟩ := h.parent n k hunder
    obtain ⟨r', hr', hfields⟩ := hchild k r hunder hr
    refine ⟨r', by rw [Dict.lookup_erase_eq, if_neg (hunder.ne h.nodup).symm, hr'], ?_⟩
    obtain rfl : p = q := Option.some.inj hp
    rw [hfields, if_pos rfl, hparent, ite_self]

/-! ### A container between a module and its port -/

def part (parent : String) (position : Int) : Fields :=
  Dict.ofList [("parent_index", .str parent), ("relative_position", .int position)]

/-- A chassis, a module in it, a container in the module, and a port in the container. -/
def slotItems : Items :=
  Dict.ofList [(.str "1", part "0" 0), (.str "2", part "1" 3), (.str "3", part "2" 7),
    (.str "4", part "3" 1)]

def slotTree : Tree :=
  .entry (.str "1") (.entry (.str "2") (.entry (.str "3") (.entry (.str "4") .empty .empty) .empty)
    .empty) .empty

theorem agrees_slot : Agrees "parent_index" slotTree slotItems := by
  refine ⟨by decide, fun q k hk => ?_⟩
  have hlinks : slotTree.links none = [(none, .str "1"), (some (.str "1"), .str "2"),
      (some (.str "2"), .str "3"), (some (.str "3"), .str "4")] := rfl
  rw [Under, hlinks] at hk
  simp only [List.mem_cons, Prod.mk.injEq, Option.some.injEq, List.not_mem_nil, or_false,
    reduceCtorEq, false_and, false_or] at hk
  rcases hk with ⟨rfl, rfl⟩ | ⟨rfl, rfl⟩ | ⟨rfl, rfl⟩
  · exact ⟨part "1" 3, rfl, rfl⟩
  · exact ⟨part "2" 7, rfl, rfl⟩
  · exact ⟨part "3" 1, rfl, rfl⟩

/-- The port goes to the module, at the position of the container. -/
theorem regraft_grafted_slot : ∃ t' items',
    regraft .stored .stored (.str "3") slotTree slotItems "parent_index" ["relative_position"]
        = .ok (t', items') ∧
      Grafted "parent_index" ["relative_position"] (.str "3") (.str "2") (part "2" 7) slotTree t'
        slotItems items' := by
  refine regraft_grafted .stored .stored agrees_slot (by decide) rfl fun k r hk hr i hi _ => ?_
  obtain ⟨r', hr', hparent⟩ := agrees_slot.parent _ k hk
  obtain rfl : r = r' := Option.some.inj (hr.symm.trans hr')
  rw [List.mem_singleton.mp hi]
  have hmem : (slotItems.items.all fun p => decide ("relative_position" ∈ p.2)) = true := by decide
  exact of_decide_eq_true (List.all_eq_true.mp hmem (k, r) (Dict.mem_items.mpr hr))

/-! ## `reattach_as` -/

/-- The node `n`, which was under `q`, has got the index `m`, in the tree and in the table, and what
had it as a parent has got that one. -/
structure Reindexed (n m q : Value) (d : Fields) (t t' : Tree) (items items' : Items) : Prop where
  gone : n ∉ items'
  record : ∃ r', items'.lookup m = some r' ∧
    ∀ f, r'.lookup f = if f = "physical_index" then some m else d.lookup f
  child : ∀ k r, items.lookup k = some r → r.lookup "parent_index" = some n →
    ∃ r', items'.lookup k = some r' ∧
      ∀ f, r'.lookup f = if f = "parent_index" then some m else r.lookup f
  other : ∀ k r, items.lookup k = some r → k ≠ n → r.lookup "parent_index" ≠ some n →
    items'.lookup k = some r
  only : ∀ k ∈ items', k = m ∨ k ∈ items
  renamed : Entities.Renamed n m q t t'
  agrees : Agrees "parent_index" t' items'

/-- What `reattach_as` does: the tree has the new index, and the table too, but nothing is found
under the old one any more. -/
theorem reattachAs_eq (o : KeyOrder) {n m q : Value} {d : Fields} {t : Tree} {items : Items}
    (h : Agrees "parent_index" t items) (hq : Under t q n) (hn : items.lookup n = some d)
    (hm : m ∉ t.nodes) (hmi : m ∉ items) :
    ∃ t', Entities.Renamed n m q t t' ∧
      reattachAs o n m t items "parent_index" "physical_index"
        = .ok (t', AList.erase n (AList.insert m (AList.insert "physical_index" m d) items)) := by
  obtain ⟨d', hn', hparent⟩ := h.parent q n hq
  obtain rfl : d' = d := Option.some.inj (hn'.symm.trans hn)
  have hne : n ≠ m := fun heq => hmi (heq ▸ Dict.mem_iff_lookup.mpr ⟨d', hn⟩)
  obtain ⟨s, hs⟩ := Forest.mem_nodes_iff.mp hq.mem_parent
  have hrenamed := Entities.renamed_of_under h.nodup hq hm
  have hchildren : childrenIds o n (renameUnder q n m t) = [] := by
    rw [renameUnder, walkTo, hs, childrenIds, walkTo,
      Forest.find_eq_none.mpr (hrenamed.notMem h.nodup hne)]
  refine ⟨renameUnder q n m t, ?_, ?_⟩
  · rw [renameUnder, walkTo, hs]
    exact hrenamed
  · have hnew : recordAt (AList.erase n (AList.insert m (AList.insert "physical_index" m d') items))
        m = .ok (AList.insert "physical_index" m d') := by
      rw [recordAt_eq_ok, Dict.lookup_erase_eq, if_neg hne.symm, AList.lookup_insert]
    simp only [reattachAs, recordAt_eq_ok.mpr hn, fieldAt_eq_ok.mpr hparent, Except.ok_bind,
      hchildren, List.foldlM_nil, pure, Except.pure, hnew]

/-- **`reattach_as`** re-indexes a node that is not at the top just when no record has it as its
parent. -/
theorem reattachAs_iff (o : KeyOrder) {n m q : Value} {d : Fields} {t : Tree} {items : Items}
    (h : Agrees "parent_index" t items) (hq : Under t q n) (hn : items.lookup n = some d)
    (hm : m ∉ t.nodes) (hmi : m ∉ items) :
    (∃ t' items', reattachAs o n m t items "parent_index" "physical_index" = .ok (t', items') ∧
        Reindexed n m q d t t' items items') ↔
      ∀ k r, items.lookup k = some r → r.lookup "parent_index" ≠ some n := by
  obtain ⟨t', hrenamed, hrun⟩ := reattachAs_eq o h hq hn hm hmi
  have hne : n ≠ m := fun heq => hmi (heq ▸ Dict.mem_iff_lookup.mpr ⟨d, hn⟩)
  have hsame : ∀ k, k ≠ n → k ∈ items →
      (AList.erase n (AList.insert m (AList.insert "physical_index" m d) items)).lookup k
        = items.lookup k := by
    intro k hk hmem
    have hkm : k ≠ m := fun heq => hmi (heq ▸ hmem)
    rw [Dict.lookup_erase_eq, if_neg hk, AList.lookup_insert_ne hkm]
  have hown : ∀ r, items.lookup n = some r → r.lookup "parent_index" ≠ some n := by
    intro r hr hc
    obtain ⟨r', hr', hparent⟩ := h.parent q n hq
    obtain rfl : r = r' := Option.some.inj (hr.symm.trans hr')
    exact hq.ne h.nodup (Option.some.inj (hparent.symm.trans hc))
  constructor
  · rintro ⟨t'', items', hrun', hre⟩ k r hr hc
    obtain ⟨-, rfl⟩ := Prod.mk.inj (Except.ok.inj (hrun.symm.trans hrun'))
    -- the record still names the old index
    have hk : k ≠ n := fun heq => hown r (heq ▸ hr) hc
    obtain ⟨r', hr', hfields⟩ := hre.child k r hr hc
    rw [hsame k hk (Dict.mem_iff_lookup.mpr ⟨r, hr⟩), hr] at hr'
    obtain rfl := Option.some.inj hr'
    have hparent := hfields "parent_index"
    rw [if_pos rfl, hc] at hparent
    exact hne (Option.some.inj hparent)
  · intro hnone
    refine ⟨t', _, hrun, ⟨?_, ?_, fun k r hr hc => absurd hc (hnone k r hr),
      fun k r hr hk _ => ?_, fun k hk => ?_, hrenamed, hrenamed.nodup, fun p k hk => ?_⟩⟩
    · exact fun hc => (AList.mem_erase.mp hc).1 rfl
    · refine ⟨AList.insert "physical_index" m d, ?_, fun f => Dict.lookup_insert_eq _ _ _ _⟩
      rw [Dict.lookup_erase_eq, if_neg hne.symm, AList.lookup_insert]
    · rw [hsame k hk (Dict.mem_iff_lookup.mpr ⟨r, hr⟩), hr]
    · exact (AList.mem_insert _).mp (AList.mem_erase.mp hk).2
    · rcases (hrenamed.links (some p) k).mp hk with ⟨hold, -, hkn⟩ | ⟨hp, rfl⟩ | ⟨-, hunder⟩
      · obtain ⟨r, hr, hparent⟩ := h.parent p k hold
        exact ⟨r, by rw [hsame k hkn (Dict.mem_iff_lookup.mpr ⟨r, hr⟩), hr], hparent⟩
      · obtain rfl := Option.some.inj hp
        obtain ⟨d', hn', hparent⟩ := h.parent p n hq
        obtain rfl : d' = d := Option.some.inj (hn'.symm.trans hn)
        refine ⟨AList.insert "physical_index" k d', ?_, ?_⟩
        · rw [Dict.lookup_erase_eq, if_neg hne.symm, AList.lookup_insert]
        · rw [Dict.lookup_insert_eq, if_neg (by decide), hparent]
      · -- nothing is under the node
        obtain ⟨r, hr, hparent⟩ := h.parent n k hunder
        exact absurd hparent (hnone k r hr)

/-- The port itself has no children. -/
theorem reattachAs_iff_port : ∃ t' items',
    reattachAs .stored (.str "4") (.str "Gi1/1") slotTree slotItems "parent_index"
        "physical_index" = .ok (t', items') ∧
      Reindexed (.str "4") (.str "Gi1/1") (.str "3") (part "3" 1) slotTree t' slotItems items' := by
  have hleaf : ∀ p ∈ slotItems.items, p.2.lookup "parent_index" ≠ some (.str "4") := by decide
  exact (reattachAs_iff .stored agrees_slot (by decide) rfl (by decide) (by decide)).mpr
    (fun k r hr => hleaf (k, r) (Dict.mem_items.mpr hr))

/-- The port under a container that gets another index still names the old one. -/
theorem not_reindexed_container : ¬ ∃ t' items',
    reattachAs .stored (.str "3") (.str "Gi1/1") slotTree slotItems "parent_index"
        "physical_index" = .ok (t', items') ∧
      Reindexed (.str "3") (.str "Gi1/1") (.str "2") (part "2" 7) slotTree t' slotItems items' := by
  rintro ⟨t', items', hrun, hre⟩
  obtain ⟨r', hr', hfields⟩ := hre.child (.str "4") (part "3" 1) rfl rfl
  have hport : ((reattachAs .stored (.str "3") (.str "Gi1/1") slotTree slotItems "parent_index"
      "physical_index").toOption.bind (fun s => s.2.lookup (.str "4"))).bind
        (fun r => r.lookup "parent_index") = some (.str "3") := by decide
  rw [hrun, show (Except.ok (t', items') : Except Exn (Tree × Items)).toOption
    = some (t', items') from rfl, Option.bind_some, hr', Option.bind_some, hfields] at hport
  exact absurd hport (by decide)

end RecordTree
