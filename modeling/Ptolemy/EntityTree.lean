/-
# The tree of entities

A device reports its physical parts as a flat table in which each part names
the part that contains it.  `build_tree` turns the table into nested
dictionaries: it attaches the entries in the order of their numbers, keeps
those whose parent has not been met in a second forest, the strays, and then
moves whole stray branches into the tree, in a bounded number of passes.

The keys are texts, and `None` for a part that was given no name.  The order in
which a loop meets the strays is unspecified and a parameter; the search for a
node does not depend on the order, as no node occurs twice.
-/
import Ptolemy.Forest
import Ptolemy.Value
import Ptolemy.PostRemap

open Driver (valueEq)

namespace Entities

/-! ## The data -/

/-- An entry of the table, with the fields that are read or written. -/
structure Entity : Type where
  parentIndex : Value
  type : String
  description : String
  serial : Option String
  relativePosition : Value
  swRev : Option String
  fwRev : Option String
  model : Option String
  physicalIndex : Value
  deriving DecidableEq, Repr

/-- The table: the entries by their index. -/
abbrev Items : Type := Dict Value Entity

/-- A `defaultdict` of such dictionaries. -/
abbrev Tree : Type := Forest Value

/-- The order in which a loop meets the keys of a dictionary. -/
structure KeyOrder : Type where
  order : List Value → List Value
  perm : ∀ l, (order l).Perm l

def KeyOrder.stored : KeyOrder := ⟨id, List.Perm.refl⟩

theorem KeyOrder.mem_order (o : KeyOrder) {l : List Value} {k : Value} :
    k ∈ o.order l ↔ k ∈ l :=
  (o.perm l).mem_iff

/-- `items[k]`. -/
def itemAt (items : Items) (k : Value) : Except Exn Entity :=
  match items.lookup k with
  | none => .error (.keyError k.toText)
  | some e => .ok e

theorem itemAt_eq_ok {items : Items} {k : Value} {e : Entity} :
    itemAt items k = .ok e ↔ items.lookup k = some e := by
  unfold itemAt
  cases items.lookup k <;> simp

/-! ## The tree operations -/

def walkTo (node : Value) (tree : Tree) : Option Tree := tree.find node

/-- The tree with `node` under `parent`, and whether it was added. -/
def attach (node parent : Value) (tree : Tree) (addIfOrphan : Bool) : Tree × Bool :=
  match walkTo parent tree with
  | none => if addIfOrphan then (tree.touch node, true) else (tree, false)
  | some _ => (tree.modify parent (fun t => t.touch node), true)

/-- `int(k)`; `none` where it raises. -/
def keyInt? : Value → Option Int
  | .str s => Text.int? s
  | .int n => some n
  | _ => none

/-- `a <= b` of two keys, `None` before every text. -/
def keyLe (a b : Value) : Prop := a = .none ∨ (b ≠ .none ∧ a.toText ≤ b.toText)

instance : DecidableRel keyLe := fun a b =>
  inferInstanceAs (Decidable (a = .none ∨ (b ≠ .none ∧ a.toText ≤ b.toText)))

/-- The keys that are numbers in the order of the numbers, then the other ones, all as texts. -/
def numeriseKeys (items : Items) : List Value :=
  let idx := items.keys.filterMap keyInt?
  let idx2 := items.keys.filter (fun k => keyInt? k = none)
  (idx.insertionSort (· ≤ ·)).map (fun i => .str (toString i)) ++
    (idx2.insertionSort keyLe).map (fun k => .str k.toText)

/-- The tree and the branches that are not in it. -/
structure Trees : Type where
  topology : Tree
  strays : Tree
  deriving DecidableEq, Repr

/-- One turn of the first loop of `build_tree`. -/
def attachItem (items : Items) (addIfOrphan : Bool) (rootIdx : Value) (s : Trees) (idx : Value) :
    Except Exn Trees := do
  let d ← itemAt items idx
  let c := .str d.parentIndex.toText
  let forceAdd := addIfOrphan || valueEq d.parentIndex rootIdx
  let (topology, added) := attach idx c s.topology forceAdd
  if added then pure { s with topology := topology }
  else pure { topology := topology, strays := (attach idx c s.strays true).1 }

/-- One turn of the second loop: the stray branch `s` goes under its parent, if the tree has it. -/
def moveStray (items : Items) (st : Trees) (s : Value) : Except Exn Trees := do
  let d ← itemAt items s
  let parent := .str d.parentIndex.toText
  pure (match walkTo parent st.topology with
    | none => st
    | some _ =>
      { topology := st.topology.modify parent (fun t => t.set s ((st.strays.get s).getD .empty))
        strays := st.strays.del s })

/-- The passes over the strays. -/
def mergeStrays (o : KeyOrder) (items : Items) : Nat → Trees → Except Exn Trees
  | 0, st => pure st
  | iterations + 1, st =>
    if st.strays.keys.isEmpty then pure st
    else do
      let st ← (o.order st.strays.keys).foldlM (moveStray items) st
      mergeStrays o items iterations st

def buildTree (o : KeyOrder) (items : Items) (addIfOrphan : Bool) (rootIdx : Value)
    (iterations : Nat) : Except Exn Tree := do
  let st ← (numeriseKeys items).foldlM (attachItem items addIfOrphan rootIdx) ⟨.empty, .empty⟩
  let st ← mergeStrays o items iterations st
  pure st.topology

/-- `build_tree(items)`, with the default arguments. -/
def entityTree (o : KeyOrder) (items : Items) : Except Exn Tree :=
  buildTree o items false (.int 0) 2

/-! ## The keys of a table -/

/-- The keys are texts, and the numbers among them are written as `str` writes them. -/
def Keyed (items : Items) : Prop :=
  ∀ k ∈ items, ∃ s, k = .str s ∧ ∀ n, Text.int? s = some n → s = toString n

section Keys

variable {items : Items} (hkeys : Keyed items)
include hkeys

theorem mem_numeriseKeys_iff {k : Value} : k ∈ numeriseKeys items ↔ k ∈ items := by
  rw [numeriseKeys, List.mem_append, List.mem_map, List.mem_map]
  constructor
  · rintro (⟨n, hn, rfl⟩ | ⟨k, hk, rfl⟩)
    · rw [List.mem_insertionSort, List.mem_filterMap] at hn
      obtain ⟨k, hk, hkn⟩ := hn
      have hk := AList.mem_keys.mp hk
      obtain ⟨s, rfl, hs⟩ := hkeys k hk
      rw [← hs n hkn]
      exact hk
    · rw [List.mem_insertionSort, List.mem_filter] at hk
      have hk := AList.mem_keys.mp hk.1
      obtain ⟨s, rfl, -⟩ := hkeys k hk
      exact hk
  · intro hk
    obtain ⟨s, rfl, hs⟩ := hkeys k hk
    cases hn : Text.int? s with
    | some n =>
      refine Or.inl ⟨n, ?_, by rw [← hs n hn]⟩
      rw [List.mem_insertionSort, List.mem_filterMap]
      exact ⟨_, AList.mem_keys.mpr hk, hn⟩
    | none =>
      refine Or.inr ⟨.str s, ?_, rfl⟩
      rw [List.mem_insertionSort, List.mem_filter]
      exact ⟨AList.mem_keys.mpr hk, decide_eq_true hn⟩

theorem nodup_numeriseKeys_of_keyed : (numeriseKeys items).Nodup := by
  have hnumbers : (items.keys.filterMap keyInt?).Nodup := by
    rw [List.Nodup, List.pairwise_filterMap]
    refine items.keys_nodup.imp_of_mem (fun {a b} ha hb hab => ?_)
    obtain ⟨s, rfl, hs⟩ := hkeys a (AList.mem_keys.mp ha)
    obtain ⟨u, rfl, hu⟩ := hkeys b (AList.mem_keys.mp hb)
    intro x hx y hy hxy
    subst hxy
    exact hab (by rw [hs x hx, hu x hy])
  rw [numeriseKeys, List.nodup_append']
  refine ⟨?_, ?_, ?_⟩
  · refine List.Nodup.map (fun m n hmn => ?_)
      ((List.perm_insertionSort (· ≤ ·) _).nodup_iff.mpr hnumbers)
    have htext := Value.str.inj hmn
    have h := Text.int?_toString m
    rw [htext, Text.int?_toString] at h
    exact (Option.some.inj h).symm
  · refine List.Nodup.map_on (fun a ha b hb hab => ?_)
      ((List.perm_insertionSort keyLe _).nodup_iff.mpr (items.keys_nodup.filter _))
    rw [List.mem_insertionSort, List.mem_filter] at ha hb
    obtain ⟨s, rfl, -⟩ := hkeys a (AList.mem_keys.mp ha.1)
    obtain ⟨u, rfl, -⟩ := hkeys b (AList.mem_keys.mp hb.1)
    exact hab
  · intro x hx hx'
    obtain ⟨n, -, rfl⟩ := List.mem_map.mp hx
    obtain ⟨k, hk, heq⟩ := List.mem_map.mp hx'
    rw [List.mem_insertionSort, List.mem_filter] at hk
    obtain ⟨s, rfl, -⟩ := hkeys k (AList.mem_keys.mp hk.1)
    have hnone : Text.int? s = none := of_decide_eq_true hk.2
    have heq : s = toString n := Value.str.inj heq
    rw [heq, Text.int?_toString] at hnone
    cases hnone

end Keys

/-- The order of the keys depends on nothing but the keys. -/
theorem numeriseKeys_congr {items items' : Items} (hkeys : Keyed items)
    (hmem : ∀ k, k ∈ items' ↔ k ∈ items) : numeriseKeys items' = numeriseKeys items := by
  have hperm : items'.keys.Perm items.keys := by
    rw [List.perm_ext_iff_of_nodup items'.keys_nodup items.keys_nodup]
    exact fun k => AList.mem_keys.symm.trans ((hmem k).trans AList.mem_keys)
  have htotal : Std.Total keyLe := ⟨fun a b => by
    unfold keyLe
    by_cases ha : a = .none
    · exact Or.inl (Or.inl ha)
    by_cases hb : b = .none
    · exact Or.inr (Or.inl hb)
    · exact (le_total a.toText b.toText).imp (fun h => Or.inr ⟨hb, h⟩) (fun h => Or.inr ⟨ha, h⟩)⟩
  have htrans : IsTrans Value keyLe := ⟨fun a b c hab hbc => by
    unfold keyLe at *
    rcases hab with hab | ⟨hb, hab⟩
    · exact Or.inl hab
    rcases hbc with hbc | ⟨hc, hbc⟩
    · exact absurd hbc hb
    · exact Or.inr ⟨hc, le_trans hab hbc⟩⟩
  have hnumbers : (items'.keys.filterMap keyInt?).insertionSort (· ≤ ·)
      = (items.keys.filterMap keyInt?).insertionSort (· ≤ ·) :=
    List.Perm.eq_of_pairwise (fun _ _ _ _ hab hba => le_antisymm hab hba)
      (List.pairwise_insertionSort _ _) (List.pairwise_insertionSort _ _)
      ((List.perm_insertionSort _ _).trans ((hperm.filterMap _).trans
        (List.perm_insertionSort _ _).symm))
  have htexts : (items'.keys.filter (fun k => keyInt? k = none)).insertionSort keyLe
      = (items.keys.filter (fun k => keyInt? k = none)).insertionSort keyLe := by
    refine List.Perm.eq_of_pairwise (fun a b ha hb hab hba => ?_)
      (List.pairwise_insertionSort _ _) (List.pairwise_insertionSort _ _)
      ((List.perm_insertionSort _ _).trans ((hperm.filter _).trans
        (List.perm_insertionSort _ _).symm))
    rw [List.mem_insertionSort, List.mem_filter] at ha hb
    obtain ⟨x, rfl, -⟩ := hkeys a ((hmem a).mp (AList.mem_keys.mp ha.1))
    obtain ⟨y, rfl, -⟩ := hkeys b (AList.mem_keys.mp hb.1)
    have hxy := hab.resolve_left (by simp)
    have hyx := hba.resolve_left (by simp)
    exact congrArg Value.str (le_antisymm hxy.2 hyx.2)
  rw [numeriseKeys, numeriseKeys, hnumbers, htexts]

/-! ## Links of the tree -/

/-- The node `k` is directly under the node `q`. -/
def Under (t : Tree) (q k : Value) : Prop := (some q, k) ∈ t.links none

instance (t : Tree) (q k : Value) : Decidable (Under t q k) :=
  inferInstanceAs (Decidable (_ ∈ t.links none))

section Links

variable {t : Tree} (hnodup : t.nodes.Nodup)
include hnodup

theorem under_iff {q k : Value} : Under t q k ↔ ∃ s, t.find q = some s ∧ k ∈ s.keys :=
  Forest.mem_links_iff hnodup (by simp)

theorem Under.unique {q q' k : Value} (h : Under t q k) (h' : Under t q' k) : q = q' :=
  Option.some.inj (Forest.links_unique hnodup h h')

theorem Under.ne {q k : Value} (h : Under t q k) : q ≠ k := by
  rintro rfl
  obtain ⟨s, hs, hk⟩ := (under_iff hnodup).mp h
  exact Forest.notMem_of_find hnodup hs (Forest.mem_nodes_of_mem_keys hk)

omit hnodup in
theorem Under.mem {q k : Value} (h : Under t q k) : k ∈ t.nodes :=
  Forest.mem_nodes_of_mem_links h

omit hnodup in
theorem Under.mem_parent {q k : Value} (h : Under t q k) : q ∈ t.nodes :=
  Forest.mem_nodes_of_mem_links_fst h (by simp)

end Links

/-! ## What building the tree keeps -/

/-- The parent of the entry `k`, as the text it is looked up by. -/
def HasParent (items : Items) (k q : Value) : Prop :=
  ∃ e, items.lookup k = some e ∧ .str e.parentIndex.toText = q

/-- The entry `k` says that it is directly under the root. -/
def IsRoot (items : Items) (k : Value) : Prop :=
  ∃ e, items.lookup k = some e ∧ valueEq e.parentIndex (.int 0) = true

/-- `q` is attached before `k`. -/
def Before (items : Items) (q k : Value) : Prop :=
  (numeriseKeys items).idxOf q < (numeriseKeys items).idxOf k

theorem HasParent.unique {items : Items} {k q q' : Value} (h : HasParent items k q)
    (h' : HasParent items k q') : q = q' := by
  obtain ⟨e, he, rfl⟩ := h
  obtain ⟨e', he', rfl⟩ := h'
  rw [he] at he'
  cases he'
  rfl

theorem before_iff {items : Items} {done rest : List Value} {q k : Value}
    (hks : numeriseKeys items = done ++ k :: rest) (hnodup : (numeriseKeys items).Nodup) :
    Before items q k ↔ q ∈ done := by
  have hk : k ∉ done := by
    rw [hks] at hnodup
    exact fun hc => (List.disjoint_of_nodup_append hnodup) hc List.mem_cons_self
  rw [Before, hks, List.idxOf_append, List.idxOf_append, if_neg hk, List.idxOf_cons_self]
  split_ifs with hq
  · exact iff_of_true (by have := List.idxOf_lt_length_of_mem hq; omega) hq
  · exact iff_of_false (by omega) hq

/-- The two forests hold the entries attached so far, each once, those of the tree under the
entry they name, and each stray at the top waits for a later one. -/
structure Built (items : Items) (done : List Value) (st : Trees) : Prop where
  nodes : (st.topology.nodes ++ st.strays.nodes).Perm done
  root : ∀ k ∈ done, IsRoot items k → k ∈ st.topology.nodes
  top : ∀ k ∈ st.topology.keys, IsRoot items k
  under : ∀ q k, (some q, k) ∈ st.topology.links none → HasParent items k q
  strayTop : ∀ k ∈ st.strays.keys,
    ¬ IsRoot items k ∧ ∀ q, HasParent items k q → ¬ Before items q k
  strayUnder : ∀ q k, (some q, k) ∈ st.strays.links none → HasParent items k q ∧ Before items q k

/-- Each entry of the tree was attached after the one it is under. -/
def Early (items : Items) (st : Trees) : Prop :=
  ∀ q k, (some q, k) ∈ st.topology.links none → Before items q k

theorem Built.mem_or {items : Items} {done : List Value} {st : Trees} (h : Built items done st)
    {k : Value} (hk : k ∈ done) : k ∈ st.topology.nodes ∨ k ∈ st.strays.nodes :=
  List.mem_append.mp (h.nodes.mem_iff.mpr hk)

theorem Built.mem_done {items : Items} {done : List Value} {st : Trees} (h : Built items done st)
    {k : Value} (hk : k ∈ st.topology.nodes ∨ k ∈ st.strays.nodes) : k ∈ done :=
  h.nodes.mem_iff.mp (List.mem_append.mpr hk)

theorem Built.start (items : Items) : Built items [] ⟨.empty, .empty⟩ where
  nodes := List.Perm.refl _
  root := fun _ h => (by cases h)
  top := fun _ h => (by cases h)
  under := fun _ _ h => (by cases h)
  strayTop := fun _ h => (by cases h)
  strayUnder := fun _ _ h => (by cases h)

/-- One more entry at a place of the tree that fits it. -/
theorem Built.addTopology {items : Items} {done : List Value} {st : Trees}
    (h : Built items done st) {k : Value} {q : Option Value} {t : Tree}
    (ht : (t.links none).Perm ((q, k) :: st.topology.links none))
    (hq : ∀ q' ∈ q, HasParent items k q') (hnone : q = none → IsRoot items k) :
    Built items (done ++ [k]) { st with topology := t } where
  nodes := by
    have hnodes : t.nodes.Perm (k :: st.topology.nodes) :=
      Forest.nodes_perm_of_links (l := [(q, k)]) ht
    calc t.nodes ++ st.strays.nodes
        List.Perm _ (k :: (st.topology.nodes ++ st.strays.nodes)) := hnodes.append_right _
        List.Perm _ (k :: done) := h.nodes.cons k
        List.Perm _ (done ++ [k]) := (List.perm_append_singleton k done).symm
  root := fun x hx hroot => by
    rw [(Forest.nodes_perm_of_links (l := [(q, k)]) ht).mem_iff]
    rcases List.mem_append.mp hx with hx | hx
    · exact List.mem_cons_of_mem _ (h.root x hx hroot)
    · exact List.mem_singleton.mp hx ▸ List.mem_cons_self
  top := fun x hx => by
    have hmem := ht.mem_iff.mp (Forest.mem_links_of_mem_keys hx none)
    rcases List.mem_cons.mp hmem with heq | hmem
    · cases heq
      exact hnone rfl
    · exact h.top x (Forest.mem_keys_of_mem_links hmem)
  under := fun q' x hx => by
    rcases List.mem_cons.mp (ht.mem_iff.mp hx) with heq | hmem
    · cases heq
      exact hq q' rfl
    · exact h.under q' x hmem
  strayTop := h.strayTop
  strayUnder := h.strayUnder

/-- One more entry at a place of the strays that fits it. -/
theorem Built.addStrays {items : Items} {done : List Value} {st : Trees}
    (h : Built items done st) {k : Value} {q : Option Value} {t : Tree}
    (ht : (t.links none).Perm ((q, k) :: st.strays.links none)) (hroot : ¬ IsRoot items k)
    (hq : ∀ q' ∈ q, HasParent items k q' ∧ Before items q' k)
    (hnone : q = none → ∀ q', HasParent items k q' → ¬ Before items q' k) :
    Built items (done ++ [k]) { st with strays := t } where
  nodes := by
    have hnodes : t.nodes.Perm (k :: st.strays.nodes) :=
      Forest.nodes_perm_of_links (l := [(q, k)]) ht
    calc st.topology.nodes ++ t.nodes
        List.Perm _ (st.topology.nodes ++ k :: st.strays.nodes) := hnodes.append_left _
        List.Perm _ (k :: (st.topology.nodes ++ st.strays.nodes)) := List.perm_middle
        List.Perm _ (k :: done) := h.nodes.cons k
        List.Perm _ (done ++ [k]) := (List.perm_append_singleton k done).symm
  root := fun x hx hx' => by
    rcases List.mem_append.mp hx with hx | hx
    · exact h.root x hx hx'
    · exact absurd (List.mem_singleton.mp hx ▸ hx') hroot
  top := h.top
  under := h.under
  strayTop := fun x hx => by
    have hmem := ht.mem_iff.mp (Forest.mem_links_of_mem_keys hx none)
    rcases List.mem_cons.mp hmem with heq | hmem
    · cases heq
      exact ⟨hroot, hnone rfl⟩
    · exact h.strayTop x (Forest.mem_keys_of_mem_links hmem)
  strayUnder := fun q' x hx => by
    rcases List.mem_cons.mp (ht.mem_iff.mp hx) with heq | hmem
    · cases heq
      exact hq q' rfl
    · exact h.strayUnder q' x hmem

theorem attach_of_mem {node parent : Value} {t : Tree} (h : parent ∈ t.nodes) (b : Bool) :
    attach node parent t b = (t.modify parent (fun s => s.touch node), true) := by
  obtain ⟨s, hs⟩ := Forest.mem_nodes_iff.mp h
  rw [attach, walkTo, hs]

theorem attach_of_notMem {node parent : Value} {t : Tree} (h : parent ∉ t.nodes) (b : Bool) :
    attach node parent t b = if b then (t.touch node, true) else (t, false) := by
  rw [attach, walkTo, Forest.find_eq_none.mpr h]

/-- **One turn of the first loop** keeps the two forests well built. -/
theorem Built.attachItem {items : Items} {done rest : List Value} {st : Trees} {k : Value}
    (h : Built items done st) (hks : numeriseKeys items = done ++ k :: rest)
    (hnodup : (numeriseKeys items).Nodup) (hk : k ∈ items) :
    ∃ st', attachItem items false (.int 0) st k = .ok st' ∧ Built items (done ++ [k]) st' ∧
      (Early items st → Early items st') := by
  obtain ⟨d, hd⟩ := Dict.mem_iff_lookup.mp hk
  have hparent : HasParent items k (.str d.parentIndex.toText) := ⟨d, hd, rfl⟩
  have hfresh : k ∉ done := by
    rw [hks] at hnodup
    exact fun hc => (List.disjoint_of_nodup_append hnodup) hc List.mem_cons_self
  have hkTopology : k ∉ st.topology.nodes := fun hc => hfresh (h.mem_done (Or.inl hc))
  have hkStrays : k ∉ st.strays.nodes := fun hc => hfresh (h.mem_done (Or.inr hc))
  unfold Entities.attachItem
  rw [itemAt_eq_ok.mpr hd, Except.ok_bind]
  simp only [Bool.false_or]
  by_cases hp : Value.str d.parentIndex.toText ∈ st.topology.nodes
  · rw [attach_of_mem hp]
    have hlinks := Forest.links_modify_touch hp hkTopology none
    refine ⟨_, rfl, h.addTopology hlinks ?_ (fun hc => (by cases hc)), ?_⟩
    · intro q hq
      cases hq
      exact hparent
    · intro hearly q x hx
      rcases List.mem_cons.mp (hlinks.mem_iff.mp hx) with heq | hmem
      · cases heq
        exact (before_iff hks hnodup).mpr (h.mem_done (Or.inl hp))
      · exact hearly q x hmem
  rw [attach_of_notMem hp]
  by_cases hroot : valueEq d.parentIndex (.int 0) = true
  · rw [hroot]
    have hlinks := Forest.links_touch
      (fun hc => hkTopology (Forest.mem_nodes_of_mem_keys hc)) none
    refine ⟨_, rfl, h.addTopology hlinks (fun _ hc => (by cases hc))
      (fun _ => ⟨d, hd, hroot⟩), fun hearly q x hx => ?_⟩
    rcases List.mem_cons.mp (hlinks.mem_iff.mp hx) with heq | hmem
    · cases heq
    · exact hearly q x hmem
  · have hnot : ¬ IsRoot items k := by
      rintro ⟨d', hd', hroot'⟩
      rw [hd] at hd'
      cases hd'
      exact hroot hroot'
    rw [Bool.eq_false_iff.mpr hroot]
    by_cases hq : Value.str d.parentIndex.toText ∈ st.strays.nodes
    · rw [attach_of_mem hq]
      refine ⟨_, rfl, h.addStrays (Forest.links_modify_touch hq hkStrays none) hnot ?_
        (fun hc => (by cases hc)), fun hearly => hearly⟩
      intro q hq'
      cases hq'
      exact ⟨hparent, (before_iff hks hnodup).mpr (h.mem_done (Or.inr hq))⟩
    · rw [attach_of_notMem hq]
      refine ⟨_, rfl, h.addStrays (Forest.links_touch
        (fun hc => hkStrays (Forest.mem_nodes_of_mem_keys hc)) none) hnot
        (fun _ hc => (by cases hc)) ?_, fun hearly => hearly⟩
      intro _ q hq' hbefore
      obtain rfl := hq'.unique hparent
      rcases h.mem_or ((before_iff hks hnodup).mp hbefore) with hc | hc
      · exact hp hc
      · exact hq hc

/-- The first loop attaches every entry. -/
theorem Built.foldlM_attachItem {items : Items} (hnodup : (numeriseKeys items).Nodup)
    (hmem : ∀ k ∈ numeriseKeys items, k ∈ items) :
    ∃ st, (numeriseKeys items).foldlM (Entities.attachItem items false (.int 0))
      ⟨.empty, .empty⟩ = .ok st ∧ Built items (numeriseKeys items) st ∧ Early items st := by
  let I : List Value → Trees → Prop := fun rest st =>
    ∃ done, numeriseKeys items = done ++ rest ∧ Built items done st ∧ Early items st
  have hstep : ∀ k rest st, I (k :: rest) st →
      ∃ st', Entities.attachItem items false (.int 0) st k = .ok st' ∧ I rest st' := by
    rintro k rest st ⟨done, hks, h, hearly⟩
    obtain ⟨st', hst', h', hearly'⟩ := h.attachItem hks hnodup
      (hmem k (hks ▸ List.mem_append_right _ List.mem_cons_self))
    exact ⟨st', hst', done ++ [k], by rw [hks, List.append_assoc, List.singleton_append], h',
      hearly' hearly⟩
  obtain ⟨st, hst, done, hks, h, hearly⟩ := Except.foldlM_total hstep
    (⟨[], rfl, Built.start items, fun _ _ hc => (by cases hc)⟩ : I (numeriseKeys items) _)
  rw [List.append_nil] at hks
  exact ⟨st, hst, hks ▸ h, hearly⟩

/-! ## What moving a stray keeps -/

/-- Moving a stray branch under its parent. -/
theorem Built.move {items : Items} {done : List Value} {st : Trees} (h : Built items done st)
    (hnodup : done.Nodup) {s q : Value} {v : Tree} (hv : st.strays.get s = some v)
    (hparent : HasParent items s q) (hq : q ∈ st.topology.nodes) :
    Built items done
      { topology := st.topology.modify q (fun t => t.set s v), strays := st.strays.del s } ∧
    (st.topology.modify q (fun t => t.set s v)).nodes.Perm
      ((s :: v.nodes) ++ st.topology.nodes) := by
  have hstrays := Forest.links_del hv none
  have hdisjoint : st.topology.nodes.Disjoint st.strays.nodes :=
    List.disjoint_of_nodup_append (h.nodes.nodup_iff.mpr hnodup)
  have hs : s ∉ st.topology.nodes := fun hc => hdisjoint hc (Forest.mem_nodes_of_mem_keys
    (Forest.mem_keys_iff.mpr ⟨v, hv⟩))
  have htopology := Forest.links_modify_set hq hs v none
  have hnodes : (st.topology.modify q (fun t => t.set s v)).nodes.Perm
      ((s :: v.nodes) ++ st.topology.nodes) := by
    have := Forest.nodes_perm_of_links htopology
    rwa [List.map_cons, Forest.map_snd_links] at this
  have hnodes' : st.strays.nodes.Perm ((s :: v.nodes) ++ (st.strays.del s).nodes) := by
    have := Forest.nodes_perm_of_links hstrays
    rwa [List.map_cons, Forest.map_snd_links] at this
  refine ⟨⟨?_, ?_, ?_, ?_, ?_, ?_⟩, hnodes⟩
  · calc (st.topology.modify q (fun t => t.set s v)).nodes ++ (st.strays.del s).nodes
        List.Perm _ (((s :: v.nodes) ++ st.topology.nodes) ++ (st.strays.del s).nodes) :=
          hnodes.append_right _
        List.Perm _ ((st.topology.nodes ++ (s :: v.nodes)) ++ (st.strays.del s).nodes) :=
          List.perm_append_comm.append_right _
        _ = st.topology.nodes ++ ((s :: v.nodes) ++ (st.strays.del s).nodes) :=
          List.append_assoc _ _ _
        List.Perm _ (st.topology.nodes ++ st.strays.nodes) := hnodes'.symm.append_left _
        List.Perm _ done := h.nodes
  · exact fun k hk hroot =>
      hnodes.mem_iff.mpr (List.mem_append_right _ (h.root k hk hroot))
  · intro k hk
    have hmem := htopology.mem_iff.mp (Forest.mem_links_of_mem_keys hk none)
    rcases List.mem_append.mp hmem with hmem | hmem
    · rcases List.mem_cons.mp hmem with heq | hmem
      · cases heq
      · exact absurd hmem (Forest.none_notMem_links v s k)
    · exact h.top k (Forest.mem_keys_of_mem_links hmem)
  · intro q' k hk
    rcases List.mem_append.mp (htopology.mem_iff.mp hk) with hmem | hmem
    · rcases List.mem_cons.mp hmem with heq | hmem
      · cases heq
        exact hparent
      · exact (h.strayUnder q' k (hstrays.mem_iff.mpr
          (List.mem_append_left _ (List.mem_cons_of_mem _ hmem)))).1
    · exact h.under q' k hmem
  · intro k hk
    exact h.strayTop k ((Forest.keys_del hv).mem_iff.mpr (List.mem_cons_of_mem _ hk))
  · exact fun q' k hk =>
      h.strayUnder q' k (hstrays.mem_iff.mpr (List.mem_append_right _ hk))

theorem Built.disjoint {items : Items} {done : List Value} {st : Trees}
    (h : Built items done st) (hnodup : done.Nodup) :
    st.topology.nodes.Disjoint st.strays.nodes :=
  List.disjoint_of_nodup_append (h.nodes.nodup_iff.mpr hnodup)

/-- An entry outside the tree is the top of a stray branch, or its parent is outside as well. -/
theorem Built.outside {items : Items} {done : List Value} {st : Trees} (h : Built items done st)
    {k : Value} (hk : k ∈ done) (hout : k ∉ st.topology.nodes) :
    k ∈ st.strays.keys ∨
      ∃ q, HasParent items k q ∧ Before items q k ∧ q ∈ st.strays.nodes := by
  obtain ⟨q, hq⟩ := Forest.exists_mem_links ((h.mem_or hk).resolve_left hout) none
  cases q with
  | none => exact Or.inl (Forest.mem_keys_of_mem_links hq)
  | some q =>
    obtain ⟨hparent, hbefore⟩ := h.strayUnder q k hq
    exact Or.inr ⟨q, hparent, hbefore, Forest.mem_nodes_of_mem_links_fst hq (fun hc => (by cases hc))⟩

/-- What one turn over the strays does to the forests. -/
inductive Turn (items : Items) (st : Trees) (s : Value) : Trees → Prop where
  | stays {q : Value} (hparent : HasParent items s q) (hq : q ∉ st.topology.nodes) :
      Turn items st s st
  | moves {q : Value} {v : Tree} (hparent : HasParent items s q) (hq : q ∈ st.topology.nodes)
      (hv : st.strays.get s = some v) :
      Turn items st s
        { topology := st.topology.modify q (fun t => t.set s v), strays := st.strays.del s }

theorem exists_turn {items : Items} {st : Trees} {s : Value} (hs : s ∈ st.strays.keys)
    (hmem : s ∈ items) : ∃ st', moveStray items st s = .ok st' ∧ Turn items st s st' := by
  obtain ⟨d, hd⟩ := Dict.mem_iff_lookup.mp hmem
  obtain ⟨v, hv⟩ := Forest.mem_keys_iff.mp hs
  unfold moveStray
  rw [itemAt_eq_ok.mpr hd, Except.ok_bind]
  by_cases hq : Value.str d.parentIndex.toText ∈ st.topology.nodes
  · obtain ⟨t, ht⟩ := Forest.mem_nodes_iff.mp hq
    simp only [walkTo, ht, hv, Option.getD_some]
    exact ⟨_, rfl, Turn.moves ⟨d, hd, rfl⟩ hq hv⟩
  · simp only [walkTo, Forest.find_eq_none.mpr hq]
    exact ⟨_, rfl, Turn.stays ⟨d, hd, rfl⟩ hq⟩

theorem Built.turn {items : Items} {done : List Value} {st st' : Trees} {s : Value}
    (h : Built items done st) (hnodup : done.Nodup) (ht : Turn items st s st') :
    Built items done st' := by
  cases ht with
  | stays _ _ => exact h
  | moves hparent hq hv => exact (h.move hnodup hv hparent hq).1

/-- A turn leaves every other stray branch where it is. -/
theorem Turn.mem_keys {items : Items} {st st' : Trees} {s k : Value} (ht : Turn items st s st')
    (hk : k ∈ st.strays.keys) (hne : k ≠ s) : k ∈ st'.strays.keys := by
  cases ht with
  | stays _ _ => exact hk
  | moves _ _ hv => exact (List.mem_cons.mp ((Forest.keys_del hv).mem_iff.mp hk)).resolve_left hne

/-- **One pass over the strays**: it does not raise, keeps the forests well built, and
establishes what its turns do. -/
theorem Built.pass {items : Items} {done : List Value} {st : Trees} (o : KeyOrder)
    {J : List Value → Trees → Prop} (h : Built items done st) (hnodup : done.Nodup)
    (hmem : ∀ k ∈ done, k ∈ items)
    (hstep : ∀ s rest st st', Built items done st → s ∈ st.strays.keys → Turn items st s st' →
      J (s :: rest) st → J rest st')
    (hJ : J (o.order st.strays.keys) st) :
    ∃ st', (o.order st.strays.keys).foldlM (moveStray items) st = .ok st' ∧
      Built items done st' ∧ J [] st' := by
  let I : List Value → Trees → Prop := fun rest st =>
    Built items done st ∧ rest.Nodup ∧ (∀ s ∈ rest, s ∈ st.strays.keys) ∧ J rest st
  have hturn : ∀ s rest st, I (s :: rest) st →
      ∃ st', moveStray items st s = .ok st' ∧ I rest st' := by
    rintro s rest st ⟨h, hrest, hkeys, hJ⟩
    obtain ⟨hs, hrest⟩ := List.nodup_cons.mp hrest
    have hkey := hkeys s List.mem_cons_self
    obtain ⟨st', hst', ht⟩ := exists_turn hkey
      (hmem s (h.mem_done (Or.inr (Forest.mem_nodes_of_mem_keys hkey))))
    refine ⟨st', hst', h.turn hnodup ht, hrest, fun k hk => ?_, hstep s rest st st' h hkey ht hJ⟩
    exact ht.mem_keys (hkeys k (List.mem_cons_of_mem s hk)) (fun hc => hs (hc ▸ hk))
  have hkeys : st.strays.keys.Nodup := by
    have hstrays := (List.nodup_append.mp (h.nodes.nodup_iff.mpr hnodup)).2.1
    exact Forest.nodup_keys hstrays
  obtain ⟨st', hst', h', -, -, hJ'⟩ := Except.foldlM_total hturn
    (⟨h, (o.perm _).nodup_iff.mpr hkeys, fun s hs => o.mem_order.mp hs, hJ⟩ :
      I (o.order st.strays.keys) st)
  exact ⟨st', hst', h', hJ'⟩

/-! ## The tree of a table -/

theorem Built.merge {items : Items} {done : List Value} (hnodup : done.Nodup)
    (hmem : ∀ k ∈ done, k ∈ items) (o : KeyOrder) (iterations : Nat) {st : Trees}
    (h : Built items done st) :
    ∃ st', mergeStrays o items iterations st = .ok st' ∧ Built items done st' := by
  induction iterations generalizing st with
  | zero => exact ⟨st, rfl, h⟩
  | succ iterations ih =>
    unfold mergeStrays
    by_cases hempty : st.strays.keys.isEmpty = true
    · exact ⟨st, by rw [if_pos hempty]; rfl, h⟩
    · obtain ⟨st', hst', h', -⟩ := h.pass (J := fun _ _ => True) o hnodup hmem
        (fun _ _ _ _ _ _ _ _ => trivial) trivial
      obtain ⟨st'', hst'', h''⟩ := ih h'
      exact ⟨st'', by rw [if_neg hempty, hst']; exact hst'', h''⟩

/-- What is known of the tree of a table. -/
structure TreeOf (items : Items) (t : Tree) : Prop where
  nodup : t.nodes.Nodup
  mem : ∀ k ∈ t.nodes, k ∈ items
  parent : ∀ q k, Under t q k → HasParent items k q
  top : ∀ k ∈ t.keys, IsRoot items k
  root : ∀ k, IsRoot items k → k ∈ t.nodes

theorem entityTree_spec {items : Items} (hkeys : Keyed items) (o : KeyOrder) :
    ∃ t, entityTree o items = .ok t ∧ TreeOf items t := by
  have hnodup := nodup_numeriseKeys_of_keyed hkeys
  have hmem : ∀ k ∈ numeriseKeys items, k ∈ items := fun k hk => (mem_numeriseKeys_iff hkeys).mp hk
  obtain ⟨st, hst, h, -⟩ := Built.foldlM_attachItem hnodup hmem
  obtain ⟨st', hst', h'⟩ := h.merge hnodup hmem o 2
  refine ⟨st'.topology, ?_, ?_, ?_, h'.under, h'.top, ?_⟩
  · rw [entityTree, buildTree, hst, Except.ok_bind, hst', Except.ok_bind]
    rfl
  · exact (List.nodup_append.mp (h'.nodes.nodup_iff.mpr hnodup)).1
  · exact fun k hk => hmem k (h'.mem_done (Or.inl hk))
  · rintro k ⟨e, he, hroot⟩
    exact h'.root k ((mem_numeriseKeys_iff hkeys).mpr (Dict.mem_iff_lookup.mpr ⟨e, he⟩))
      ⟨e, he, hroot⟩

end Entities
