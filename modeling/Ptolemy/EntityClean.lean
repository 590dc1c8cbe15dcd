/-
# The second loop over the entities

While the second loop removes entities and gives transceivers the index of
their port, the tree and the table stay in step everywhere but under the
transceivers: there the parents have been rewritten to port names before the
tree knows them.  The invariant of the loop says so link by link, and says what
has become of every entity.

A turn can raise only where a transceiver gets its new index while it is at the
top of the tree or under another transceiver, and one of its children has left
the table before it.
-/
import Ptolemy.EntityScan

namespace Entities

/-! ## What is asked of the entities -/

/-- The indices are texts, written canonically where they are numbers; the parents are numbers or
texts. -/
structure Dataset (items : Items) : Prop where
  keyed : Keyed items
  parent : ∀ k e, items.lookup k = some e →
    (∃ n, e.parentIndex = .int n) ∨ ∃ s, e.parentIndex = .str s

/-- The entity is at the top level. -/
def AtTop (e : Entity) : Prop := e.parentIndex.toText = "0"

instance (e : Entity) : Decidable (AtTop e) := inferInstanceAs (Decidable (_ = _))

/-- The entities that are removed: without a serial, no fans, and not at the top level. -/
def dropped (items : Items) (k : Value) : Bool :=
  (items.lookup k).any (fun e => ¬ AtTop e ∧ e.serial = none ∧ e.type ≠ "fan")

theorem dropped_eq {items : Items} {k : Value} {e : Entity} (he : items.lookup k = some e) :
    dropped items k = true ↔ ¬ AtTop e ∧ e.serial = none ∧ e.type ≠ "fan" := by
  rw [dropped, he, Option.any_some, decide_eq_true_eq]

/-- A value that is neither the index of an entity nor the root. -/
def NameLike (items : Items) (v : Value) : Prop := v ∉ items ∧ v ≠ .str "0"

/-- What the loops keep of an entity: its type, as corrected, and what they never write. -/
structure Kept (e e' : Entity) : Prop where
  type : e'.type = (correctType e).type
  description : e'.description = e.description
  serial : e'.serial = e.serial
  model : e'.model = e.model

section Setting

variable (o : KeyOrder) (ports : Ports) (items : Items) (t : Tree)

/-- No port that a transceiver gets as its index, or the child of one as its parent, is called
like an entity, or like the root. -/
structure FreshPorts : Prop where
  index : ∀ k p, newIndex o ports items t k = some p → NameLike items p
  parent : ∀ T k e v, IsTransceiver items T → Under t T k → items.lookup k = some e →
    Located ports e v → NameLike items v

/-- `p` is the new index of a transceiver. -/
def IsNew (p : Value) : Prop := ∃ T, newIndex o ports items t T = some p

/-- The tree has `k` under a transceiver. -/
def UnderTransceiver (k : Value) : Prop := ∃ T, IsTransceiver items T ∧ Under t T k

/-- What both loops rely on. -/
structure Setting : Prop where
  dataset : Dataset items
  fresh : FreshPorts o ports items t
  injective : ∀ k k' p, newIndex o ports items t k = some p →
    newIndex o ports items t k' = some p → k = k'
  tree : TreeOf items t
  inTree : ∀ k, IsTransceiver items k → k ∈ t.nodes
  zero : ¬ IsTransceiver items (.str "0") ∧ dropped items (.str "0") = false

variable {o ports items t}

theorem isTransceiver_of_newIndex {k p : Value} (h : newIndex o ports items t k = some p) :
    IsTransceiver items k := by
  by_contra hnot
  rw [newIndex_of_not hnot] at h
  cases h

theorem IsTransceiver.mem {k : Value} (h : IsTransceiver items k) : k ∈ items :=
  Dict.mem_iff_lookup.mpr (h.imp (fun _ he => he.1))

variable (h : Setting o ports items t)
include h

theorem Setting.nameLike_new {k p : Value} (hp : newIndex o ports items t k = some p) :
    NameLike items p := h.fresh.index k p hp

theorem Setting.nameLike_isNew {p : Value} (hp : IsNew o ports items t p) : NameLike items p := by
  obtain ⟨T, hT⟩ := hp
  exact h.nameLike_new hT

theorem Setting.nameLike_located {k : Value} {e : Entity} {v : Value}
    (hk : UnderTransceiver items t k) (he : items.lookup k = some e) (hv : Located ports e v) :
    NameLike items v := by
  obtain ⟨T, hT, hunder⟩ := hk
  exact h.fresh.parent T k e v hT hunder he hv

/-- An entry at the top of the tree is at the top level. -/
theorem Setting.atTop_of_root {k : Value} {e : Entity} (he : items.lookup k = some e)
    (hroot : IsRoot items k) : AtTop e := by
  obtain ⟨e', he', hroot⟩ := hroot
  rw [he] at he'
  cases he'
  rcases h.dataset.parent k e he with ⟨n, hn⟩ | ⟨s, hs⟩
  · rw [hn] at hroot
    have hzero : n = 0 := Value.int.inj (of_decide_eq_true hroot)
    rw [AtTop, hn, hzero]
    rfl
  · rw [hs] at hroot
    simp [Driver.valueEq] at hroot

end Setting

/-! ## The invariant of the second loop -/

section Clean

variable (o : KeyOrder) (ports : Ports) (items : Items) (t : Tree)

/-- The index under which the entry `k` is found once the loop has visited `visited`. -/
def currentIndex (visited : List Value) (k : Value) : Value :=
  if k ∈ visited then (newIndex o ports items t k).getD k else k

/-- The tree and the table agree on what `k` is under, and `q` is an entry still, unless one of
them is the new index of a transceiver. -/
def Agree (its : Items) (q k : Value) : Prop :=
  (∃ e, its.lookup k = some e ∧ e.parentIndex = q) ∧
  (q ∈ its ∨ IsNew o ports items t q ∨ IsNew o ports items t k)

/-- The tree has `k` under a transceiver, by its old index or by its new one, and the table has it
under the name of a port. -/
def Loose (its : Items) (q k : Value) : Prop :=
  ((IsTransceiver items q ∧ Under t q k) ∨ IsNew o ports items t q) ∧
  UnderTransceiver items t k ∧ ∀ e, its.lookup k = some e → NameLike items e.parentIndex

/-- What has become of the entry `k`, which was `e`. -/
structure Entry (k : Value) (e e' : Entity) : Prop where
  kept : Kept e e'
  top : AtTop e → e'.parentIndex = .str "0"
  notTop : ¬ AtTop e → e'.parentIndex ≠ .str "0"
  notTransceiver : k ∈ t.nodes → ¬ IsTransceiver items e'.parentIndex

/-- The tree and the table once the second loop has visited `visited`. -/
structure Cleaned (visited : List Value) (tr : Tree) (its : Items) : Prop where
  nodup : tr.nodes.Nodup
  nodes : ∀ k ∈ tr.nodes, k ∈ t.nodes ∨ ∃ T ∈ visited, newIndex o ports items t T = some k
  top : ∀ k, (none, k) ∈ tr.links none → k ∈ t.keys
  link : ∀ q k, Under tr q k →
    (¬ IsTransceiver items q ∧ Agree o ports items t its q k) ∨ Loose o ports items t its q k
  entry : ∀ k e, items.lookup k = some e → (dropped items k = true ∧ k ∈ visited) ∨
    ∃ e', its.lookup (currentIndex o ports items t visited k) = some e' ∧ Entry items t k e e'
  only : ∀ j ∈ its, ∃ k ∈ items, ¬ (dropped items k = true ∧ k ∈ visited) ∧
    j = currentIndex o ports items t visited k

variable {o ports items t} (h : Setting o ports items t)
include h

/-- What the first loop leaves to the second one. -/
theorem Setting.start {s : Scan}
    (hs : Scanned o ports items t (numeriseKeys items) s) :
    Cleaned o ports items t [] t s.items := by
  have hvisited : ∀ k ∈ items, k ∈ numeriseKeys items := fun k hk =>
    (mem_numeriseKeys_iff h.dataset.keyed).mpr hk
  -- every entry with its parent, as the first loop has left it
  have hentry : ∀ k e, items.lookup k = some e → ∃ v,
      s.items.lookup k = some { correctType e with parentIndex := v } ∧
      (¬ UnderTransceiver items t k → v = .str e.parentIndex.toText) ∧
      (UnderTransceiver items t k → Located ports e v) := by
    intro k e he
    have hk : k ∈ numeriseKeys items := hvisited k (Dict.mem_iff_lookup.mpr ⟨e, he⟩)
    obtain ⟨v, hv, hplain, hlocated⟩ := hs.entries.entry k e he
    rw [if_pos hk] at hv hplain
    refine ⟨v, hv, fun hnot => hplain ?_, fun ⟨T, hT, hk⟩ => hlocated ⟨T, hvisited T hT.mem, hT, hk⟩⟩
    rintro ⟨T, -, hT, hk⟩
    exact hnot ⟨T, hT, hk⟩
  have hnotTop : ∀ k e, items.lookup k = some e → AtTop e → ¬ UnderTransceiver items t k := by
    rintro k e he htop ⟨T, hT, hk⟩
    obtain ⟨e', he', hq⟩ := h.tree.parent T k hk
    rw [he] at he'
    cases he'
    rw [AtTop] at htop
    rw [htop] at hq
    exact h.zero.1 (hq ▸ hT)
  refine ⟨h.tree.nodup, fun k hk => Or.inl hk, fun k hk => Forest.mem_keys_of_mem_links hk,
    fun q k hk => ?_, fun k e he => Or.inr ?_, fun j hj => ?_⟩
  · obtain ⟨e, he, hq⟩ := h.tree.parent q k hk
    obtain ⟨v, hv, hplain, hlocated⟩ := hentry k e he
    by_cases hT : IsTransceiver items q
    · refine Or.inr ⟨Or.inl ⟨hT, hk⟩, ⟨q, hT, hk⟩, fun e' he' => ?_⟩
      rw [hv] at he'
      cases he'
      exact h.nameLike_located ⟨q, hT, hk⟩ he (hlocated ⟨q, hT, hk⟩)
    · refine Or.inl ⟨hT, ⟨_, hv, ?_⟩, Or.inl (hs.entries.mem (h.tree.mem q hk.mem_parent))⟩
      have hnot : ¬ UnderTransceiver items t k := by
        rintro ⟨T, hT', hk'⟩
        exact hT (hk.unique h.tree.nodup hk' ▸ hT')
      exact (hplain hnot).trans hq
  · obtain ⟨v, hv, hplain, hlocated⟩ := hentry k e he
    refine ⟨{ correctType e with parentIndex := v },
      by rw [currentIndex, if_neg List.not_mem_nil]; exact hv, ⟨rfl, correctType_description e,
      correctType_serial e, correctType_model e⟩, fun htop => ?_, fun htop => ?_, fun hk => ?_⟩
    · exact (hplain (hnotTop k e he htop)).trans (congrArg Value.str htop)
    · by_cases hunder : UnderTransceiver items t k
      · exact (h.nameLike_located hunder he (hlocated hunder)).2
      · exact fun hc => htop (Value.str.inj ((hplain hunder).symm.trans hc))
    · by_cases hunder : UnderTransceiver items t k
      · exact fun hc => (h.nameLike_located hunder he (hlocated hunder)).1 hc.mem
      · -- an ordinary place in the tree
        intro hc
        obtain ⟨q, hq⟩ := Forest.exists_mem_links hk none
        cases q with
        | none =>
          have htop := h.atTop_of_root he (h.tree.top k (Forest.mem_keys_of_mem_links hq))
          have hv0 : v = .str "0" := (hplain hunder).trans (congrArg Value.str htop)
          exact h.zero.1 (hv0 ▸ hc)
        | some q =>
          obtain ⟨e', he', hq'⟩ := h.tree.parent q k hq
          rw [he] at he'
          cases he'
          have hvq : v = q := (hplain hunder).trans hq'
          exact hunder ⟨q, hvq ▸ hc, hq⟩
  · refine ⟨j, hs.entries.only j hj, fun hc => absurd hc.2 List.not_mem_nil, ?_⟩
    rw [currentIndex, if_neg List.not_mem_nil]

/-! ## What the invariant says of the entry that is visited -/

omit h in
theorem currentIndex_append {visited : List Value} {idx k : Value} (hk : k ≠ idx) :
    currentIndex o ports items t (visited ++ [idx]) k = currentIndex o ports items t visited k := by
  rw [currentIndex, currentIndex]
  simp only [List.mem_append, List.mem_singleton, hk, or_false]

omit h in
theorem currentIndex_of_notMem {visited : List Value} {k : Value} (hk : k ∉ visited) :
    currentIndex o ports items t visited k = k := by
  rw [currentIndex, if_neg hk]

omit h in
theorem currentIndex_cases (visited : List Value) (k : Value) :
    currentIndex o ports items t visited k = k ∨
      (k ∈ visited ∧ newIndex o ports items t k
        = some (currentIndex o ports items t visited k)) := by
  rw [currentIndex]
  split_ifs with hk
  · cases hnew : newIndex o ports items t k with
    | none => exact Or.inl rfl
    | some p => exact Or.inr ⟨hk, rfl⟩
  · exact Or.inl rfl

/-- No other entry is found at the index of an entry. -/
theorem Setting.currentIndex_ne (visited : List Value) {idx k : Value} (hidx : idx ∈ items)
    (hk : k ≠ idx) : currentIndex o ports items t visited k ≠ idx := by
  rcases currentIndex_cases (o := o) (t := t) visited k with
    heq | ⟨-, hnew⟩
  · rw [heq]
    exact hk
  · exact fun hc => (h.nameLike_new hnew).1 (hc ▸ hidx)

/-- What the tree has at the index of an entry was there from the beginning. -/
theorem Cleaned.mem_nodes {visited : List Value} {tr : Tree} {its : Items}
    (hc : Cleaned o ports items t visited tr its) {k : Value} (hk : k ∈ items)
    (hnode : k ∈ tr.nodes) : k ∈ t.nodes := by
  rcases hc.nodes k hnode with hnode | ⟨T, -, hT⟩
  · exact hnode
  · exact absurd hk (h.nameLike_new hT).1

omit h in
/-- What the tree has under `n` has it as its parent, or the name of a port. -/
theorem Cleaned.parent_of_under {visited : List Value} {tr : Tree} {its : Items}
    (hc : Cleaned o ports items t visited tr its) {n j : Value} {d : Entity} (hunder : Under tr n j)
    (hd : its.lookup j = some d) : d.parentIndex = n ∨ NameLike items d.parentIndex := by
  rcases hc.link n j hunder with ⟨-, ⟨e, he, hq⟩, -⟩ | ⟨-, -, hname⟩
  · rw [hd] at he
    cases he
    exact Or.inl hq
  · exact Or.inr (hname d hd)

omit h in
/-- What the tree has under an entry is not at the top level. -/
theorem Cleaned.not_atTop {visited : List Value} {tr : Tree} {its : Items}
    (hc : Cleaned o ports items t visited tr its) {n j k : Value} {e d : Entity}
    (hn : n ≠ .str "0") (hunder : Under tr n j) (hd : its.lookup j = some d)
    (hentry : Entry items t k e d) : ¬ AtTop e := by
  intro htop
  have hzero := hentry.top htop
  rcases hc.parent_of_under hunder hd with hq | hname
  · exact hn (hq.symm.trans hzero)
  · exact hname.2 hzero

omit h in
/-- The entry at an index that the loop has not visited. -/
theorem Cleaned.entry_of_notMem {visited : List Value} {tr : Tree} {its : Items}
    (hc : Cleaned o ports items t visited tr its) {k : Value} {e : Entity}
    (he : items.lookup k = some e) (hk : k ∉ visited) :
    ∃ e', its.lookup k = some e' ∧ Entry items t k e e' := by
  rcases hc.entry k e he with ⟨-, hv⟩ | hentry
  · exact absurd hv hk
  · rwa [currentIndex_of_notMem hk] at hentry

omit h in
/-- An entry that gets another parent below the top level. -/
theorem Entry.reparent {k : Value} {e d d' : Entity} (hd : Entry items t k e d)
    (hsame : d'.type = d.type ∧ d'.description = d.description ∧ d'.serial = d.serial ∧
      d'.model = d.model) (htop : ¬ AtTop e) (hne : d'.parentIndex ≠ .str "0")
    (htrans : k ∈ t.nodes → ¬ IsTransceiver items d'.parentIndex) : Entry items t k e d' := by
  obtain ⟨htype, hdescription, hserial, hmodel⟩ := hsame
  exact ⟨⟨htype.trans hd.kept.type, hdescription.trans hd.kept.description,
    hserial.trans hd.kept.serial, hmodel.trans hd.kept.model⟩, fun hc => absurd hc htop,
    fun _ => hne, htrans⟩

omit h in
theorem rehomed_inherited (removed d : Entity) :
    (rehomed inherited removed d).parentIndex = removed.parentIndex ∧
      (rehomed inherited removed d).type = d.type ∧
      (rehomed inherited removed d).description = d.description ∧
      (rehomed inherited removed d).serial = d.serial ∧
      (rehomed inherited removed d).model = d.model := by
  unfold rehomed inherited
  split_ifs <;> exact ⟨rfl, rfl, rfl, rfl, rfl⟩

/-! ## The turns -/

section Remove

variable {visited : List Value} {tr tr' : Tree} {its its' : Items} {idx : Value} {e' : Entity}
  (hc : Cleaned o ports items t visited tr its) (hidx : idx ∈ items) (hnew : idx ∉ visited)
  (hdrop : dropped items idx = true) (he' : its.lookup idx = some e')
  (hreg : Regrafted idx e'.parentIndex its tr tr')
  (hlookup : ∀ k, its'.lookup k
    = if Under tr idx k then (its.lookup k).map (rehomed inherited e') else its.lookup k)

omit h in
include hlookup in
theorem mem_removed (k : Value) : k ∈ AList.erase idx its' ↔ k ≠ idx ∧ k ∈ its := by
  rw [AList.mem_erase, Dict.mem_iff_lookup, Dict.mem_iff_lookup, hlookup]
  split_ifs <;> simp

omit h in
include hlookup in
theorem lookup_removed {k : Value} (hk : k ≠ idx) (hunder : ¬ Under tr idx k) :
    (AList.erase idx its').lookup k = its.lookup k := by
  rw [Dict.lookup_erase_eq, if_neg hk, hlookup, if_neg hunder]

include hc hidx hnew hdrop he'

omit h in
/-- The entry that is removed. -/
theorem Cleaned.removed_entry : ∃ e, items.lookup idx = some e ∧ ¬ AtTop e ∧
    Entry items t idx e e' := by
  obtain ⟨e, he⟩ := Dict.mem_iff_lookup.mp hidx
  obtain ⟨d, hd, hentry⟩ := hc.entry_of_notMem he hnew
  obtain rfl := Option.some.inj (he'.symm.trans hd)
  exact ⟨e, he, ((dropped_eq he).mp hdrop).1, hentry⟩

include hlookup

omit h hidx hnew hdrop he' in
theorem Cleaned.lookup_moved {k : Value} {d : Entity} (hunder : Under tr idx k)
    (hd : its.lookup k = some d) :
    (AList.erase idx its').lookup k = some (rehomed inherited e' d) := by
  rw [Dict.lookup_erase_eq, if_neg (hunder.ne hc.nodup).symm, hlookup, if_pos hunder, hd,
    Option.map_some]

/-- What has become of the entries. -/
theorem Cleaned.remove_entry (k : Value) (d : Entity) (hd : items.lookup k = some d) :
    (dropped items k = true ∧ k ∈ visited ++ [idx]) ∨
      ∃ d', (AList.erase idx its').lookup (currentIndex o ports items t (visited ++ [idx]) k)
        = some d' ∧ Entry items t k d d' := by
  obtain ⟨e, -, hnotTop, hentry⟩ := hc.removed_entry hidx hnew hdrop he'
  have hzero : idx ≠ .str "0" := fun hc => by
    rw [hc, h.zero.2] at hdrop
    cases hdrop
  by_cases hk : k = idx
  · exact Or.inl ⟨hk ▸ hdrop, hk ▸ List.mem_append_right _ List.mem_cons_self⟩
  rcases hc.entry k d hd with ⟨hdropped, hv⟩ | ⟨d', hd', hentry'⟩
  · exact Or.inl ⟨hdropped, List.mem_append_left _ hv⟩
  rw [currentIndex_append hk]
  have hj := h.currentIndex_ne visited hidx hk
  by_cases hunder : Under tr idx (currentIndex o ports items t visited k)
  · obtain ⟨hparent, hfields⟩ := rehomed_inherited e' d'
    refine Or.inr ⟨_, hc.lookup_moved hlookup hunder hd', hentry'.reparent hfields
      (hc.not_atTop hzero hunder hd' hentry') ?_ fun _ => ?_⟩
    · rw [hparent]
      exact hentry.notTop hnotTop
    · rw [hparent]
      exact hentry.notTransceiver (hc.mem_nodes h hidx hunder.mem_parent)
  · exact Or.inr ⟨d', (lookup_removed hlookup hj hunder).trans hd', hentry'⟩

omit h hidx he' hdrop in
/-- What the entries of the table were. -/
theorem Cleaned.remove_only (j : Value) (hj : j ∈ AList.erase idx its') :
    ∃ k ∈ items, ¬ (dropped items k = true ∧ k ∈ visited ++ [idx]) ∧
      j = currentIndex o ports items t (visited ++ [idx]) k := by
  obtain ⟨hjidx, hj⟩ := (mem_removed hlookup j).mp hj
  obtain ⟨k, hk, hkept, rfl⟩ := hc.only j hj
  have hkidx : k ≠ idx := by
    rintro rfl
    exact hjidx (currentIndex_of_notMem hnew)
  refine ⟨k, hk, fun hc => hkept ⟨hc.1, ?_⟩, (currentIndex_append hkidx).symm⟩
  exact (List.mem_append.mp hc.2).resolve_right (fun hc => hkidx (List.mem_singleton.mp hc))

omit h hidx hnew hdrop in
/-- A link that was there. -/
theorem Cleaned.remove_link {q k : Value} (hold : Under tr q k)
    (hgone : ¬ (some q = some idx ∧ k ∈ its))
    (hself : ¬ (some q = some e'.parentIndex ∧ k = idx)) :
    (¬ IsTransceiver items q ∧ Agree o ports items t (AList.erase idx its') q k) ∨
      Loose o ports items t (AList.erase idx its') q k := by
  have hnotUnder : k ∈ its → ¬ Under tr idx k := fun hkits hunder =>
    hgone ⟨congrArg some (Under.unique hc.nodup hold hunder), hkits⟩
  rcases hc.link q k hold with ⟨hT, ⟨d, hd, hdq⟩, hq⟩ | ⟨hq, hT, hname⟩
  · have hkits : k ∈ its := Dict.mem_iff_lookup.mpr ⟨d, hd⟩
    have hqidx : q ≠ idx := fun hc => hgone ⟨congrArg some hc, hkits⟩
    have hkidx : k ≠ idx := by
      rintro rfl
      rw [he'] at hd
      cases hd
      exact hself ⟨congrArg some hdq.symm, rfl⟩
    refine Or.inl ⟨hT, ⟨d, (lookup_removed hlookup hkidx (hnotUnder hkits)).trans hd, hdq⟩, ?_⟩
    exact hq.imp_left (fun hq => (mem_removed hlookup q).mpr ⟨hqidx, hq⟩)
  · refine Or.inr ⟨hq, hT, fun d hd => ?_⟩
    obtain ⟨hkidx, hkits⟩ := (mem_removed hlookup k).mp (Dict.mem_iff_lookup.mpr ⟨d, hd⟩)
    rw [lookup_removed hlookup hkidx (hnotUnder hkits)] at hd
    exact hname d hd

/-- A child of the entry, which is now under its parent. -/
theorem Cleaned.remove_child {k : Value} (hunder : Under tr idx k) (hkits : k ∈ its)
    (hq : e'.parentIndex ∈ tr.nodes) :
    ¬ IsTransceiver items e'.parentIndex ∧
      Agree o ports items t (AList.erase idx its') e'.parentIndex k := by
  obtain ⟨e, he, hnotTop, hentry⟩ := hc.removed_entry hidx hnew hdrop he'
  obtain ⟨d, hd⟩ := Dict.mem_iff_lookup.mp hkits
  refine ⟨hentry.notTransceiver (hc.mem_nodes h hidx hunder.mem_parent),
    ⟨_, hc.lookup_moved hlookup hunder hd, (rehomed_inherited e' d).1⟩, ?_⟩
  obtain ⟨p, hp⟩ := Forest.exists_mem_links hunder.mem_parent none
  cases p with
  | none => exact absurd (h.atTop_of_root he (h.tree.top idx (hc.top idx hp))) hnotTop
  | some p =>
    rcases hc.link p idx hp with ⟨-, ⟨d', hd', rfl⟩, hq'⟩ | ⟨-, -, hname⟩
    · obtain rfl := Option.some.inj (he'.symm.trans hd')
      have hne : e'.parentIndex ≠ idx := Under.ne hc.nodup hp
      rcases hq' with hq' | hq' | ⟨T, hT⟩
      · exact Or.inl ((mem_removed hlookup _).mpr ⟨hne, hq'⟩)
      · exact Or.inr (Or.inl hq')
      · exact absurd hidx (h.nameLike_new hT).1
    · rcases hc.nodes _ hq with hq | ⟨T, -, hT⟩
      · exact absurd (h.tree.mem _ hq) (hname e' he').1
      · exact Or.inr (Or.inl ⟨T, hT⟩)

include hreg in
/-- **A turn that removes an entry.** -/
theorem Cleaned.remove :
    Cleaned o ports items t (visited ++ [idx]) tr' (AList.erase idx its') := by
  refine ⟨hreg.nodup, fun k hk => ?_, fun k hk => ?_, fun q k hk => ?_,
    hc.remove_entry h hidx hnew hdrop he' hlookup, hc.remove_only hnew hlookup⟩
  · exact (hc.nodes k (hreg.nodes hk)).imp_right
      (fun ⟨T, hT, hnewT⟩ => ⟨T, List.mem_append_left _ hT, hnewT⟩)
  · rcases hreg.source none k hk with ⟨hk, -⟩ | ⟨hp, -⟩
    · exact hc.top k hk
    · cases hp
  · rcases hreg.source (some q) k hk with ⟨hold, hgone, hself⟩ | ⟨hp, hunder, hkits, hq⟩
    · exact hc.remove_link he' hlookup hold hgone hself
    · obtain rfl : q = e'.parentIndex := Option.some.inj hp
      exact Or.inl (hc.remove_child h hidx hnew hdrop he' hlookup hunder hkits hq)

end Remove

/-- A new index is not in the tree, nor in the table, before its transceiver is visited. -/
theorem Cleaned.fresh {visited : List Value} {tr : Tree} {its : Items} {idx p : Value}
    (hc : Cleaned o ports items t visited tr its) (hnew : idx ∉ visited)
    (hp : newIndex o ports items t idx = some p) : p ∉ tr.nodes ∧ p ∉ its := by
  have hout := (h.nameLike_new hp).1
  constructor
  · intro hmem
    rcases hc.nodes p hmem with hmem | ⟨T, hT, hTp⟩
    · exact hout (h.tree.mem p hmem)
    · exact hnew (h.injective T idx p hTp hp ▸ hT)
  · intro hmem
    obtain ⟨k, hk, -, heq⟩ := hc.only p hmem
    rcases currentIndex_cases (o := o) (t := t) visited k with
      hk' | ⟨hv, hk'⟩
    · exact hout (by rwa [heq, hk'])
    · rw [← heq] at hk'
      exact hnew (h.injective k idx p hk' hp ▸ hv)

/-- What the tree has under a transceiver, by its old index, was there from the beginning. -/
theorem Cleaned.loose {visited : List Value} {tr : Tree} {its : Items} {T k : Value}
    (hc : Cleaned o ports items t visited tr its) (hT : IsTransceiver items T)
    (hunder : Under tr T k) :
    Under t T k ∧ ∀ d, its.lookup k = some d → NameLike items d.parentIndex := by
  rcases hc.link T k hunder with ⟨hnot, -⟩ | ⟨⟨-, hold⟩ | ⟨T', hT'⟩, -, hname⟩
  · exact absurd hT hnot
  · exact ⟨hold, hname⟩
  · exact absurd hT.mem (h.nameLike_new hT').1

section Reattach

variable {visited : List Value} {tr tr' : Tree} {its its' : Items} {idx p : Value} {e' : Entity}
  (hc : Cleaned o ports items t visited tr its) (hnew : idx ∉ visited)
  (hp : newIndex o ports items t idx = some p) (he' : its.lookup idx = some e')
  (hlookup : ∀ k, its'.lookup k = if k = idx then none
    else if k = p then some { e' with physicalIndex := p }
    else if ¬ Under tr e'.parentIndex idx ∧ Under tr idx k then
      (its.lookup k).map (fun e => { e with parentIndex := p })
    else its.lookup k)

include hp in
theorem Setting.new_ne : p ≠ idx := fun heq =>
  (h.nameLike_new hp).1 (heq ▸ (isTransceiver_of_newIndex hp).mem)

omit h in
include hp in
theorem currentIndex_append_self :
    currentIndex o ports items t (visited ++ [idx]) idx = p := by
  rw [currentIndex, if_pos (List.mem_append_right _ List.mem_cons_self), hp, Option.getD_some]

include hp hlookup

theorem Setting.mem_reattached (k : Value) : k ∈ its' ↔ k ≠ idx ∧ (k = p ∨ k ∈ its) := by
  have hpidx := h.new_ne hp
  rw [Dict.mem_iff_lookup, Dict.mem_iff_lookup, hlookup]
  split_ifs with h1 h2 h3
  · simp [h1]
  · simp [h2, hpidx]
  · simp [h1, h2]
  · simp [h1, h2]

theorem Setting.lookup_reattached : its'.lookup p = some { e' with physicalIndex := p } := by
  rw [hlookup, if_neg (h.new_ne hp), if_pos rfl]

include hc hnew he'

/-- What has become of the entries. -/
theorem Cleaned.reattach_entry (k : Value) (e : Entity) (he : items.lookup k = some e) :
    (dropped items k = true ∧ k ∈ visited ++ [idx]) ∨
      ∃ d', its'.lookup (currentIndex o ports items t (visited ++ [idx]) k) = some d' ∧
        Entry items t k e d' := by
  have hT : IsTransceiver items idx := isTransceiver_of_newIndex hp
  have hname := h.nameLike_new hp
  have hzero : idx ≠ .str "0" := fun hc => h.zero.1 (hc ▸ hT)
  by_cases hk : k = idx
  · subst hk
    obtain ⟨d, hd, hentry⟩ := hc.entry_of_notMem he hnew
    obtain rfl := Option.some.inj (he'.symm.trans hd)
    rw [currentIndex_append_self hp]
    exact Or.inr ⟨_, h.lookup_reattached hp hlookup, ⟨hentry.kept.type, hentry.kept.description,
      hentry.kept.serial, hentry.kept.model⟩, hentry.top, hentry.notTop, hentry.notTransceiver⟩
  rcases hc.entry k e he with ⟨hdropped, hv⟩ | ⟨d', hd', hentry'⟩
  · exact Or.inl ⟨hdropped, List.mem_append_left _ hv⟩
  rw [currentIndex_append hk]
  have hj := h.currentIndex_ne visited hT.mem hk
  have hjp : currentIndex o ports items t visited k ≠ p := fun heq =>
    (hc.fresh h hnew hp).2 (heq ▸ Dict.mem_iff_lookup.mpr ⟨d', hd'⟩)
  by_cases hmoved : ¬ Under tr e'.parentIndex idx ∧
      Under tr idx (currentIndex o ports items t visited k)
  · refine Or.inr ⟨{ d' with parentIndex := p }, ?_, hentry'.reparent ⟨rfl, rfl, rfl, rfl⟩
      (hc.not_atTop hzero hmoved.2 hd' hentry') hname.2 fun _ hc => hname.1 hc.mem⟩
    rw [hlookup, if_neg hj, if_neg hjp, if_pos hmoved, hd', Option.map_some]
  · exact Or.inr ⟨d', by rw [hlookup, if_neg hj, if_neg hjp, if_neg hmoved]; exact hd', hentry'⟩

omit he' in
/-- What the entries of the table were. -/
theorem Cleaned.reattach_only (hkeep : dropped items idx = false) (j : Value) (hj : j ∈ its') :
    ∃ k ∈ items, ¬ (dropped items k = true ∧ k ∈ visited ++ [idx]) ∧
      j = currentIndex o ports items t (visited ++ [idx]) k := by
  obtain ⟨hjidx, rfl | hj⟩ := (h.mem_reattached hp hlookup j).mp hj
  · refine ⟨idx, (isTransceiver_of_newIndex hp).mem, fun hc => ?_,
      (currentIndex_append_self hp).symm⟩
    rw [hkeep] at hc
    cases hc.1
  · obtain ⟨k, hk, hkept, rfl⟩ := hc.only j hj
    have hkidx : k ≠ idx := by
      rintro rfl
      exact hjidx (currentIndex_of_notMem hnew)
    refine ⟨k, hk, fun hc => hkept ⟨hc.1, ?_⟩, (currentIndex_append hkidx).symm⟩
    exact (List.mem_append.mp hc.2).resolve_right (fun hc => hkidx (List.mem_singleton.mp hc))

omit he' in
/-- A link that does not begin or end at the old index. -/
theorem Cleaned.reattach_link {q k : Value} (hold : Under tr q k) (hq : q ≠ idx) (hk : k ≠ idx) :
    (¬ IsTransceiver items q ∧ Agree o ports items t its' q k) ∨
      Loose o ports items t its' q k := by
  have hkp : k ≠ p := fun heq => (hc.fresh h hnew hp).1 (heq ▸ hold.mem)
  have hsame : its'.lookup k = its.lookup k := by
    rw [hlookup, if_neg hk, if_neg hkp,
      if_neg (fun hcc => hq (Under.unique hc.nodup hold hcc.2))]
  rcases hc.link q k hold with ⟨hnot, ⟨d, hd, hdq⟩, hq'⟩ | ⟨hq', hunder, hname'⟩
  · refine Or.inl ⟨hnot, ⟨d, hsame.trans hd, hdq⟩, hq'.imp_left (fun hq' => ?_)⟩
    exact (h.mem_reattached hp hlookup q).mpr ⟨hq, Or.inr hq'⟩
  · exact Or.inr ⟨hq', hunder, fun d hd => hname' d (hsame ▸ hd)⟩

omit he' hc hnew in
/-- The new node under the parent of the entry. -/
theorem Setting.agree_reattached : Agree o ports items t its' e'.parentIndex p :=
  ⟨⟨_, h.lookup_reattached hp hlookup, rfl⟩, Or.inr (Or.inr ⟨idx, hp⟩)⟩

omit h hnew he' hlookup in
theorem Cleaned.reattach_nodes {k : Value} (hk : k ∈ tr.nodes ∨ k = p) :
    k ∈ t.nodes ∨ ∃ T ∈ visited ++ [idx], newIndex o ports items t T = some k := by
  rcases hk with hk | rfl
  · exact (hc.nodes k hk).imp_right (fun ⟨T, hT, hTk⟩ => ⟨T, List.mem_append_left _ hT, hTk⟩)
  · exact Or.inr ⟨idx, List.mem_append_right _ List.mem_cons_self, hp⟩

/-- **A turn that gives a transceiver the index of its port**, where the tree has it under its
parent. -/
theorem Cleaned.reattach_renamed (hkeep : dropped items idx = false)
    (hunder : Under tr e'.parentIndex idx) (hr : Renamed idx p e'.parentIndex tr tr') :
    Cleaned o ports items t (visited ++ [idx]) tr' its' := by
  have hT : IsTransceiver items idx := isTransceiver_of_newIndex hp
  obtain ⟨e, he⟩ := Dict.mem_iff_lookup.mp hT.mem
  obtain ⟨d, hd, hentry⟩ := hc.entry_of_notMem he hnew
  obtain rfl := Option.some.inj (he'.symm.trans hd)
  have hpnode := (hc.fresh h hnew hp).1
  refine ⟨hr.nodup, fun k hk => hc.reattach_nodes hp ?_, fun k hk => ?_, fun q k hk => ?_,
    hc.reattach_entry h hnew hp he' hlookup, hc.reattach_only h hnew hp hlookup hkeep⟩
  · obtain ⟨q, hq⟩ := Forest.exists_mem_links hk none
    rcases (hr.links q k).mp hq with ⟨hold, -⟩ | ⟨-, rfl⟩ | ⟨-, hold⟩
    · exact Or.inl (Forest.mem_nodes_of_mem_links hold)
    · exact Or.inr rfl
    · exact Or.inl hold.mem
  · rcases (hr.links none k).mp hk with ⟨hold, -⟩ | ⟨hq, -⟩ | ⟨hq, -⟩
    · exact hc.top k hold
    · cases hq
    · cases hq
  · rcases (hr.links (some q) k).mp hk with ⟨hold, hq, hkidx⟩ | ⟨hq, rfl⟩ | ⟨hq, hold⟩
    · exact hc.reattach_link h hnew hp hlookup hold (fun hc => hq (congrArg some hc)) hkidx
    · obtain rfl := Option.some.inj hq
      exact Or.inl ⟨hentry.notTransceiver (h.inTree idx hT), h.agree_reattached hp hlookup⟩
    · -- what was under the old index is under the new one
      obtain rfl := Option.some.inj hq
      obtain ⟨hold', hname'⟩ := hc.loose h hT hold
      refine Or.inr ⟨Or.inr ⟨idx, hp⟩, ⟨idx, hT, hold'⟩, fun d hd => hname' d ?_⟩
      have hkp : k ≠ q := fun hc => hpnode (hc ▸ hold.mem)
      rwa [hlookup, if_neg (hold.ne hc.nodup).symm, if_neg hkp,
        if_neg (fun hc => hc.1 hunder)] at hd

/-- The same where the tree has it elsewhere. -/
theorem Cleaned.reattach_added (hkeep : dropped items idx = false)
    (hunder : ¬ Under tr e'.parentIndex idx) (ha : Added p e'.parentIndex tr tr') :
    Cleaned o ports items t (visited ++ [idx]) tr' its' := by
  have hT : IsTransceiver items idx := isTransceiver_of_newIndex hp
  obtain ⟨e, he⟩ := Dict.mem_iff_lookup.mp hT.mem
  obtain ⟨d, hd, hentry⟩ := hc.entry_of_notMem he hnew
  obtain rfl := Option.some.inj (he'.symm.trans hd)
  have hpnode := (hc.fresh h hnew hp).1
  refine ⟨ha.nodup, fun k hk => hc.reattach_nodes hp ?_, fun k hk => ?_, fun q k hk => ?_,
    hc.reattach_entry h hnew hp he' hlookup, hc.reattach_only h hnew hp hlookup hkeep⟩
  · obtain ⟨q, hq⟩ := Forest.exists_mem_links hk none
    rcases (ha.links q k).mp hq with hold | ⟨-, rfl, -⟩
    · exact Or.inl (Forest.mem_nodes_of_mem_links hold)
    · exact Or.inr rfl
  · rcases (ha.links none k).mp hk with hold | ⟨hq, -⟩
    · exact hc.top k hold
    · cases hq
  · rcases (ha.links (some q) k).mp hk with hold | ⟨hq, rfl, -⟩
    · by_cases hq : q = idx
      · -- a child that has been told the new index
        subst hq
        obtain ⟨hold', -⟩ := hc.loose h hT hold
        refine Or.inr ⟨Or.inl ⟨hT, hold'⟩, ⟨q, hT, hold'⟩, fun d hd => ?_⟩
        have hkp : k ≠ p := fun hc => hpnode (hc ▸ Under.mem hold)
        rw [hlookup, if_neg (Under.ne hc.nodup hold).symm, if_neg hkp,
          if_pos ⟨hunder, hold⟩] at hd
        obtain ⟨d', -, rfl⟩ := Option.map_eq_some_iff.mp hd
        exact h.nameLike_new hp
      by_cases hk : k = idx
      · -- the old index, which is stale now
        subst hk
        rcases hc.link q k hold with ⟨-, ⟨d, hd, rfl⟩, -⟩ | ⟨hq', hunder', -⟩
        · rw [he'] at hd
          cases hd
          exact absurd hold hunder
        · refine Or.inr ⟨hq', hunder', fun d hd => ?_⟩
          rw [hlookup, if_pos rfl] at hd
          cases hd
      · exact hc.reattach_link h hnew hp hlookup hold hq hk
    · obtain rfl := Option.some.inj hq
      exact Or.inl ⟨hentry.notTransceiver (h.inTree idx hT), h.agree_reattached hp hlookup⟩

end Reattach

omit h in
/-- A turn that leaves an entry as it is. -/
theorem Cleaned.pass {visited : List Value} {tr : Tree} {its : Items} {idx : Value}
    (hc : Cleaned o ports items t visited tr its) (hnew : idx ∉ visited)
    (hkeep : dropped items idx = false) (hnone : newIndex o ports items t idx = none) :
    Cleaned o ports items t (visited ++ [idx]) tr its := by
  have hcurrent : ∀ k, currentIndex o ports items t (visited ++ [idx]) k
      = currentIndex o ports items t visited k := by
    intro k
    by_cases hk : k = idx
    · subst hk
      rw [currentIndex_of_notMem hnew, currentIndex, hnone, Option.getD_none, ite_self]
    · exact currentIndex_append hk
  refine ⟨hc.nodup, fun k hk => ?_, hc.top, hc.link, fun k e he => ?_, fun j hj => ?_⟩
  · exact (hc.nodes k hk).imp_right (fun ⟨T, hT, hTk⟩ => ⟨T, List.mem_append_left _ hT, hTk⟩)
  · rw [hcurrent]
    exact (hc.entry k e he).imp_left (fun hd => ⟨hd.1, List.mem_append_left _ hd.2⟩)
  · obtain ⟨k, hk, hkept, rfl⟩ := hc.only j hj
    refine ⟨k, hk, fun hd => ?_, (hcurrent k).symm⟩
    rcases List.mem_append.mp hd.2 with hv | hv
    · exact hkept ⟨hd.1, hv⟩
    · rw [List.mem_singleton.mp hv, hkeep] at hd
      cases hd.1

omit h in
theorem useless_eq {k : Value} {e e' : Entity} (he : items.lookup k = some e)
    (hentry : Entry items t k e e') : useless e' = dropped items k := by
  have htop : e'.parentIndex ≠ .str "0" ↔ ¬ AtTop e :=
    ⟨fun hne htop => hne (hentry.top htop), hentry.notTop⟩
  have hfan : e'.type ≠ "fan" ↔ e.type ≠ "fan" := by
    rw [hentry.kept.type, Ne, correctType_eq_fan]
  rw [useless, dropped, he, Option.any_some, decide_eq_decide, hentry.kept.serial, htop, hfan]

/-! ## One turn -/

variable (o ports items t) in
/-- Giving the transceiver `T` its new index does not raise: the tree has it under its parent, or
else all that the tree has under it is in the table. -/
def Movable (tr : Tree) (its : Items) (T : Value) : Prop :=
  newIndex o ports items t T ≠ none → dropped items T = false →
    ∀ d, its.lookup T = some d → Under tr d.parentIndex T ∨ ∀ c, Under tr T c → c ∈ its

variable (o ports items t) in
/-- What a turn of the second loop makes of the tree and of the table. -/
inductive Turned (tr : Tree) (its : Items) (idx : Value) : Tree → Items → Prop where
  | removed {e' : Entity} {tr' : Tree} {its' : Items} (hdrop : dropped items idx = true)
      (he' : its.lookup idx = some e') (hreg : Regrafted idx e'.parentIndex its tr tr')
      (hlookup : ∀ k, its'.lookup k
        = if Under tr idx k then (its.lookup k).map (rehomed inherited e') else its.lookup k) :
      Turned tr its idx tr' (AList.erase idx its')
  | reattached {e' : Entity} {p : Value} {tr' : Tree} {its' : Items}
      (hkeep : dropped items idx = false) (hp : newIndex o ports items t idx = some p)
      (he' : its.lookup idx = some e')
      (hrenamed : Under tr e'.parentIndex idx → Renamed idx p e'.parentIndex tr tr')
      (hadded : ¬ Under tr e'.parentIndex idx → Added p e'.parentIndex tr tr')
      (hlookup : ∀ k, its'.lookup k = if k = idx then none
        else if k = p then some { e' with physicalIndex := p }
        else if ¬ Under tr e'.parentIndex idx ∧ Under tr idx k then
          (its.lookup k).map (fun e => { e with parentIndex := p })
        else its.lookup k) :
      Turned tr its idx tr' its'
  | passed (hkeep : dropped items idx = false) (hnone : newIndex o ports items t idx = none) :
      Turned tr its idx tr its

/-- **One turn of the second loop**: it does not raise just when the entry is movable. -/
theorem Cleaned.exists_turned {remap : Dict Value Value} {visited : List Value} {tr : Tree}
    {its : Items} {idx : Value} (hremap : remap.lookup idx = newIndex o ports items t idx)
    (hc : Cleaned o ports items t visited tr its) (hidx : idx ∈ items) (hnew : idx ∉ visited) :
    (Movable o ports items t tr its idx → ∃ s, cleanEntity o remap (tr, its) idx = .ok s ∧
      Turned o ports items t tr its idx s.1 s.2) ∧
    ∀ s, cleanEntity o remap (tr, its) idx = .ok s → Movable o ports items t tr its idx := by
  obtain ⟨e, he⟩ := Dict.mem_iff_lookup.mp hidx
  obtain ⟨e', he', hentry⟩ := hc.entry_of_notMem he hnew
  have huseless := useless_eq he hentry
  unfold cleanEntity
  rw [itemAt_eq_ok.mpr he', Except.ok_bind]
  cases hdrop : dropped items idx with
  | true =>
    obtain ⟨tr', its', hregraft, hregrafted, hlookup⟩ := regraft_spec o inherited hc.nodup he'
    have hgone : idx ∉ AList.erase idx its' := fun hm => (AList.mem_erase.mp hm).1 rfl
    refine ⟨fun _ => ⟨(tr', AList.erase idx its'), ?_, .removed hdrop he' hregrafted hlookup⟩,
      fun s _ _ hkeep => ?_⟩
    · rw [huseless, hdrop, if_pos rfl]
      simp only [hregraft, Except.ok_bind]
      cases remap.lookup idx with
      | none => rfl
      | some p => exact if_neg hgone
    · cases hdrop.symm.trans hkeep
  | false =>
    rw [huseless, hdrop, if_neg Bool.false_ne_true]
    simp only [pure, Except.pure, Except.ok_bind]
    rw [hremap]
    cases hp : newIndex o ports items t idx with
    | none => exact ⟨fun _ => ⟨_, rfl, .passed hdrop hp⟩, fun s _ hsome => absurd hp hsome⟩
    | some p =>
      have hT : IsTransceiver items idx := isTransceiver_of_newIndex hp
      obtain ⟨hpnode, hpits⟩ := hc.fresh h hnew hp
      have hq : e'.parentIndex ≠ idx := fun hcc =>
        hentry.notTransceiver (h.inTree idx hT) (hcc ▸ hT)
      have hmem : idx ∈ its := Dict.mem_iff_lookup.mpr ⟨e', he'⟩
      have hne : idx ≠ p := fun hcc => hpits (hcc ▸ hmem)
      simp only [if_pos hmem]
      refine ⟨fun hok => ?_, fun s hs _ _ d hd => ?_⟩
      · obtain ⟨tr', its', hrun, hrenamed, hadded, hlookup⟩ := reattachAs_spec o hc.nodup he'
          hpnode hq hpits (hok (by rw [hp]; exact Option.some_ne_none p) hdrop e' he')
        exact ⟨(tr', its'), hrun, .reattached hdrop hp he' hrenamed hadded hlookup⟩
      · rw [he'] at hd
        cases hd
        exact of_reattachAs_eq_ok o hc.nodup he' hpnode hq hne hs

/-- **A turn keeps the invariant.** -/
theorem Cleaned.turned {visited : List Value} {tr tr' : Tree} {its its' : Items} {idx : Value}
    (hc : Cleaned o ports items t visited tr its) (hidx : idx ∈ items) (hnew : idx ∉ visited)
    (ht : Turned o ports items t tr its idx tr' its') :
    Cleaned o ports items t (visited ++ [idx]) tr' its' := by
  cases ht with
  | removed hdrop he' hreg hlookup => exact hc.remove h hidx hnew hdrop he' hreg hlookup
  | @reattached e' p tr' its' hkeep hp he' hrenamed hadded hlookup =>
    by_cases hunder : Under tr e'.parentIndex idx
    · exact hc.reattach_renamed h hnew hp he' hlookup hkeep hunder (hrenamed hunder)
    · exact hc.reattach_added h hnew hp he' hlookup hkeep hunder (hadded hunder)
  | passed hkeep hnone => exact hc.pass hnew hkeep hnone

end Clean

end Entities
