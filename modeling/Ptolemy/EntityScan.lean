/-
# The first loop over the entities

What the first loop leaves behind, told by the table and the tree it starts
from: every entry with its corrected type, the parent of what the tree has
under a transceiver rewritten to the port that its description names, and the
new indices of the transceivers.  The loop raises exactly where a transceiver
is not in the tree.
-/
import Ptolemy.EntityMoves

namespace Entities

/-! ## Types, port names, new indices -/

theorem correctType_parent (e : Entity) (v : Value) :
    correctType { e with parentIndex := v } = { correctType e with parentIndex := v } := by
  unfold correctType
  split_ifs <;> rfl

theorem correctType_description (e : Entity) : (correctType e).description = e.description := by
  unfold correctType
  split_ifs <;> rfl

theorem correctType_serial (e : Entity) : (correctType e).serial = e.serial := by
  unfold correctType
  split_ifs <;> rfl

theorem correctType_model (e : Entity) : (correctType e).model = e.model := by
  unfold correctType
  split_ifs <;> rfl

theorem correctType_eq_fan (e : Entity) : (correctType e).type = "fan" ↔ e.type = "fan" := by
  unfold correctType
  split_ifs with h h'
  · simp [h.1]
  · simp [h'.1]
  · exact Iff.rfl

theorem correctType_eq_chassis (e : Entity) :
    (correctType e).type = "chassis" ↔ e.type = "chassis" := by
  unfold correctType
  split_ifs with h h'
  · simp [h.1]
  · simp [h'.1]
  · exact Iff.rfl

/-- The entry `k` is a transceiver, by its corrected type. -/
def IsTransceiver (items : Items) (k : Value) : Prop :=
  ∃ e, items.lookup k = some e ∧ (correctType e).type = "transceiver"

/-- The entry `k` is a chassis. -/
def isChassis (items : Items) (k : Value) : Bool :=
  (items.lookup k).any (fun e => e.type = "chassis")

section Scan

variable (o : KeyOrder) (ports : Ports) (items : Items) (t : Tree)

/-- The port that a transceiver is plugged into: its last child tells, else its own
description. -/
def portName (k : Value) (e : Entity) : Option String :=
  let located :=
    match (childrenIds o k t).getLast? with
    | none => none
    | some c => (items.lookup c).bind (fun d => ports.truncate d.description)
  if isText located then located else ports.extract e.description

/-- The index that the entry `k` is to get, where it is a transceiver with a port. -/
def newIndex (k : Value) : Option Value :=
  (items.lookup k).bind (fun e =>
    if (correctType e).type = "transceiver" then
      (portName o ports items t k e).bind (fun port =>
        if port = "" then none else some (optionValue (ports.extract port)))
    else none)

/-- The parent of an entry that the tree has under a transceiver. -/
def Located (e : Entity) (v : Value) : Prop :=
  v = optionValue (ports.truncate e.description) ∨
  v = .str (optionValue (ports.truncate e.description)).toText

/-- The table once the entries `visited` and the children of the transceivers in `located` have
been treated. -/
structure Entries (visited located : List Value) (its : Items) : Prop where
  entry : ∀ k e, items.lookup k = some e → ∃ v,
    its.lookup k = some { (if k ∈ visited then correctType e else e) with parentIndex := v } ∧
    ((¬ ∃ T ∈ located, IsTransceiver items T ∧ Under t T k) →
      v = if k ∈ visited then .str e.parentIndex.toText else e.parentIndex) ∧
    ((∃ T ∈ located, IsTransceiver items T ∧ Under t T k) → Located ports e v)
  only : ∀ k ∈ its, k ∈ items

variable {o ports items t}

theorem Entries.start : Entries ports items t [] [] items where
  entry := fun k e he => ⟨e.parentIndex, by rw [if_neg List.not_mem_nil]; exact he,
    fun _ => by rw [if_neg List.not_mem_nil], fun ⟨_, h, _⟩ => absurd h List.not_mem_nil⟩
  only := fun _ h => h

theorem Located.text {e : Entity} {v : Value} (h : Located ports e v) :
    Located ports e (.str v.toText) := by
  rcases h with rfl | rfl
  · exact Or.inr rfl
  · exact Or.inr rfl

/-- Visiting one more entry. -/
theorem Entries.visit {visited located : List Value} {its : Items} {idx : Value} {d : Entity}
    (h : Entries ports items t visited located its) (hd : its.lookup idx = some d)
    (hidx : idx ∉ visited) :
    Entries ports items t (visited ++ [idx]) located
      (AList.insert idx (correctType { d with parentIndex := .str d.parentIndex.toText }) its) where
  entry := fun k e he => by
    obtain ⟨v, hv, hplain, hlocated⟩ := h.entry k e he
    rw [Dict.lookup_insert_eq]
    by_cases hk : k = idx
    · subst hk
      rw [hv] at hd
      rw [if_neg hidx] at hplain hd
      cases hd
      refine ⟨.str v.toText, ?_, fun hnone => ?_, fun hsome => (hlocated hsome).text⟩
      · rw [if_pos rfl, if_pos (List.mem_append_right _ List.mem_cons_self), correctType_parent,
          correctType_parent]
      · rw [if_pos (List.mem_append_right _ List.mem_cons_self), hplain hnone]
    · have hiff : k ∈ visited ++ [idx] ↔ k ∈ visited := by
        rw [List.mem_append, List.mem_singleton, or_iff_left hk]
      refine ⟨v, ?_, fun hnone => ?_, hlocated⟩
      · rw [if_neg hk, hv]
        simp only [hiff]
      · rw [hplain hnone]
        simp only [hiff]
  only := fun k hk => by
    rcases (AList.mem_insert _).mp hk with rfl | hk
    · exact h.only k (Dict.mem_iff_lookup.mpr ⟨d, hd⟩)
    · exact h.only k hk

/-- An entry that is no transceiver has no children to treat. -/
theorem Entries.pass {visited located : List Value} {its : Items} {idx : Value}
    (h : Entries ports items t visited located its) (hidx : ¬ IsTransceiver items idx) :
    Entries ports items t visited (located ++ [idx]) its where
  entry := fun k e he => by
    have hiff : (∃ T ∈ located ++ [idx], IsTransceiver items T ∧ Under t T k) ↔
        ∃ T ∈ located, IsTransceiver items T ∧ Under t T k := by
      constructor
      · rintro ⟨T, hT, hT', hk⟩
        rcases List.mem_append.mp hT with hT | hT
        · exact ⟨T, hT, hT', hk⟩
        · exact absurd (List.mem_singleton.mp hT ▸ hT') hidx
      · rintro ⟨T, hT, h⟩
        exact ⟨T, List.mem_append_left _ hT, h⟩
    rw [hiff]
    exact h.entry k e he
  only := h.only

def located (ports : Ports) (d : Entity) : Entity :=
  { d with parentIndex := optionValue (ports.truncate d.description) }

variable (ports) in
/-- The children of a transceiver. -/
theorem foldlM_locateChild {cs : List Value} (hcs : cs.Nodup) {s : Items × Option String}
    (hmem : ∀ c ∈ cs, c ∈ s.1) :
    ∃ its, cs.foldlM (locateChild ports) s = .ok (its, match cs.getLast? with
        | none => s.2
        | some c => (s.1.lookup c).bind (fun d => ports.truncate d.description)) ∧
      ∀ k, its.lookup k = if k ∈ cs then (s.1.lookup k).map (located ports)
        else s.1.lookup k := by
  induction cs generalizing s with
  | nil => exact ⟨s.1, rfl, fun k => by rw [if_neg List.not_mem_nil]⟩
  | cons c cs ih =>
    obtain ⟨hc, hcs⟩ := List.nodup_cons.mp hcs
    obtain ⟨d, hd⟩ := Dict.mem_iff_lookup.mp (hmem c List.mem_cons_self)
    have hfirst : locateChild ports s c
        = .ok (AList.insert c (located ports d) s.1, ports.truncate d.description) := by
      rw [locateChild, itemAt_eq_ok.mpr hd]
      rfl
    obtain ⟨its, hits, hlookup⟩ := ih hcs
      (s := (AList.insert c (located ports d) s.1, ports.truncate d.description))
      (fun k hk => (AList.mem_insert _).mpr (Or.inr (hmem k (List.mem_cons_of_mem c hk))))
    have hother : ∀ k ∈ cs, (AList.insert c (located ports d) s.1).lookup k = s.1.lookup k :=
      fun k hk => AList.lookup_insert_ne (fun hkc => hc (hkc ▸ hk))
    refine ⟨its, ?_, fun k => ?_⟩
    · rw [List.foldlM_cons, hfirst, Except.ok_bind, hits]
      congr 2
      cases hlast : cs.getLast? with
      | none =>
        rw [List.getLast?_eq_none_iff] at hlast
        subst hlast
        simp [hd]
      | some x =>
        have hx : x ∈ cs := List.mem_of_getLast? hlast
        rw [List.getLast?_cons, hlast]
        simp only [Option.getD_some, hother x hx]
    · rw [hlookup k, Dict.lookup_insert_eq]
      by_cases hkc : k = c
      · subst hkc
        rw [if_neg hc, if_pos rfl, if_pos List.mem_cons_self, hd]
        rfl
      · simp only [List.mem_cons, hkc, false_or, if_false]

/-- Treating the children of one more transceiver. -/
theorem Entries.locate {visited located : List Value} {its its' : Items} {idx : Value}
    (h : Entries ports items t visited located its) (hidx : IsTransceiver items idx)
    (hlookup : ∀ k, its'.lookup k
      = if Under t idx k then (its.lookup k).map (Entities.located ports) else its.lookup k) :
    Entries ports items t visited (located ++ [idx]) its' where
  entry := fun k e he => by
    obtain ⟨v, hv, hplain, hlocated⟩ := h.entry k e he
    by_cases hk : Under t idx k
    · refine ⟨optionValue (ports.truncate e.description), ?_, fun hnone => ?_, fun _ => Or.inl rfl⟩
      · rw [hlookup k, if_pos hk, hv]
        simp only [Option.map_some, Entities.located]
        split_ifs
        · rw [correctType_description]
        · rfl
      · exact absurd ⟨idx, List.mem_append_right _ List.mem_cons_self, hidx, hk⟩ hnone
    · have hiff : (∃ T ∈ located ++ [idx], IsTransceiver items T ∧ Under t T k) ↔
          ∃ T ∈ located, IsTransceiver items T ∧ Under t T k := by
        constructor
        · rintro ⟨T, hT, hT', hk'⟩
          rcases List.mem_append.mp hT with hT | hT
          · exact ⟨T, hT, hT', hk'⟩
          · exact absurd (List.mem_singleton.mp hT ▸ hk') hk
        · rintro ⟨T, hT, h⟩
          exact ⟨T, List.mem_append_left _ hT, h⟩
      rw [hlookup k, if_neg hk, hiff]
      exact ⟨v, hv, hplain, hlocated⟩
  only := fun k hk => by
    obtain ⟨d, hd⟩ := Dict.mem_iff_lookup.mp hk
    rw [hlookup k] at hd
    split_ifs at hd
    · obtain ⟨d', hd', -⟩ := Option.map_eq_some_iff.mp hd
      exact h.only k (Dict.mem_iff_lookup.mpr ⟨d', hd'⟩)
    · exact h.only k (Dict.mem_iff_lookup.mpr ⟨d, hd⟩)

/-! ## The loop -/

variable (o ports items t) in
/-- What the first loop has collected after the entries `visited`. -/
structure Scanned (visited : List Value) (s : Scan) : Prop where
  entries : Entries ports items t visited visited s.items
  remap : ∀ k, s.remap.lookup k = if k ∈ visited then newIndex o ports items t k else none
  chassis : s.chassisIds = visited.filter (isChassis items)

theorem Entries.mem {visited located : List Value} {its : Items}
    (h : Entries ports items t visited located its) {k : Value} (hk : k ∈ items) : k ∈ its := by
  obtain ⟨e, he⟩ := Dict.mem_iff_lookup.mp hk
  obtain ⟨v, hv, -⟩ := h.entry k e he
  exact Dict.mem_iff_lookup.mpr ⟨_, hv⟩

theorem Entries.description {visited located : List Value} {its : Items}
    (h : Entries ports items t visited located its) (k : Value) :
    (its.lookup k).bind (fun d => ports.truncate d.description)
      = (items.lookup k).bind (fun d => ports.truncate d.description) := by
  cases hk : items.lookup k with
  | none =>
    have : its.lookup k = none := AList.lookup_eq_none.mpr (fun hc =>
      AList.lookup_eq_none.mp hk (h.only k hc))
    rw [this]
  | some e =>
    obtain ⟨v, hv, -⟩ := h.entry k e hk
    rw [hv]
    simp only [Option.bind_some]
    split_ifs
    · rw [correctType_description]
    · rfl

theorem newIndex_of_not {k : Value} (h : ¬ IsTransceiver items k) :
    newIndex o ports items t k = none := by
  unfold newIndex
  cases hk : items.lookup k with
  | none => rfl
  | some e => rw [Option.bind_some, if_neg (fun hc => h ⟨e, hk, hc⟩)]

theorem remap_step {visited : List Value} {remap : Dict Value Value} {idx : Value}
    (h : ∀ k, remap.lookup k = if k ∈ visited then newIndex o ports items t k else none)
    (hnone : newIndex o ports items t idx = none) (k : Value) :
    remap.lookup k = if k ∈ visited ++ [idx] then newIndex o ports items t k else none := by
  rw [h k]
  by_cases hk : k = idx
  · subst hk
    rw [hnone, ite_self, ite_self]
  · simp only [List.mem_append, List.mem_singleton, hk, or_false]

theorem chassis_step {visited chassis : List Value} {idx : Value}
    (h : chassis = visited.filter (isChassis items)) :
    (visited ++ [idx]).filter (isChassis items)
      = if isChassis items idx then chassis ++ [idx] else chassis := by
  rw [List.filter_append, ← h]
  cases hidx : isChassis items idx <;> simp [hidx]

/-- **One turn of the first loop**: it raises at most where a transceiver is not in the tree. -/
theorem Scanned.step {visited : List Value} {s : Scan} {idx : Value}
    (h : Scanned o ports items t visited s) (ht : t.nodes.Nodup)
    (hmem : ∀ k ∈ t.nodes, k ∈ items) (hidx : idx ∈ items) (hnew : idx ∉ visited)
    (hok : IsTransceiver items idx → idx ∈ t.nodes) :
    ∃ s', scanEntity o ports t s idx = .ok s' ∧ Scanned o ports items t (visited ++ [idx]) s' := by
  obtain ⟨e, he⟩ := Dict.mem_iff_lookup.mp hidx
  obtain ⟨v, hv, -⟩ := h.entries.entry idx e he
  rw [if_neg hnew] at hv
  have hvisit := h.entries.visit hv hnew
  set this := correctType { { e with parentIndex := v } with parentIndex := .str v.toText }
    with hthis
  have htype : this.type = (correctType e).type := by
    rw [hthis, correctType_parent, correctType_parent]
  have hdescription : this.description = e.description := by
    rw [hthis, correctType_description]
  have hchassis : isChassis items idx = decide (e.type = "chassis") := by
    rw [isChassis, he, Option.any_some]
  unfold scanEntity
  rw [itemAt_eq_ok.mpr hv, Except.ok_bind]
  simp only [← hthis]
  by_cases htrans : this.type = "transceiver"
  · have hidx' : IsTransceiver items idx := ⟨e, he, htype ▸ htrans⟩
    obtain ⟨node, hnode⟩ := Forest.mem_nodes_iff.mp (hok hidx')
    have hchildren : childrenIds o idx t = o.order node.keys := by
      rw [childrenIds, walkTo, hnode]
    obtain ⟨its, hits, hlookup⟩ := foldlM_locateChild ports
      (hchildren ▸ nodup_children ht idx o) (s := (AList.insert idx this s.items, none))
      (fun c hc => hvisit.mem
        (hmem c ((mem_children ht o).mp (hchildren ▸ hc)).mem))
    have hlookup' : ∀ k, its.lookup k = if Under t idx k
        then ((AList.insert idx this s.items).lookup k).map (located ports)
        else (AList.insert idx this s.items).lookup k := by
      intro k
      rw [hlookup k]
      simp only [← hchildren, mem_children ht o]
    have hentries := hvisit.locate hidx' hlookup'
    have hnot : isChassis items idx = false := by
      rw [hchassis, decide_eq_false_iff_not, ← correctType_eq_chassis, ← htype, htrans]
      decide
    have hname : (if isText (match (o.order node.keys).getLast? with
          | none => none
          | some c => ((AList.insert idx this s.items).lookup c).bind
              (fun d => ports.truncate d.description))
        then (match (o.order node.keys).getLast? with
          | none => none
          | some c => ((AList.insert idx this s.items).lookup c).bind
              (fun d => ports.truncate d.description))
        else ports.extract this.description) = portName o ports items t idx e := by
      rw [portName, hchildren, hdescription]
      cases (o.order node.keys).getLast? with
      | none => rfl
      | some c => simp only [hvisit.description c]
    rw [if_pos htrans, walkTo, hnode]
    simp only [hits, Except.ok_bind]
    rw [hname]
    have hnewIndex : newIndex o ports items t idx
        = (portName o ports items t idx e).bind (fun port =>
            if port = "" then none else some (optionValue (ports.extract port))) := by
      rw [newIndex, he, Option.bind_some, if_pos (htype ▸ htrans)]
    have hsame : ∀ {remap : Dict Value Value},
        (∀ k, remap.lookup k = if k ∈ visited ++ [idx] then newIndex o ports items t k else none) →
        Scanned o ports items t (visited ++ [idx]) { s with items := its, remap := remap } :=
      fun hremap => ⟨hentries, hremap, by rw [chassis_step h.chassis, hnot]; rfl⟩
    cases hport : portName o ports items t idx e with
    | none =>
      rw [hport, Option.bind_none] at hnewIndex
      exact ⟨_, rfl, hsame (remap_step h.remap hnewIndex)⟩
    | some port =>
      rw [hport, Option.bind_some] at hnewIndex
      by_cases hempty : port = ""
      · rw [if_pos hempty] at hnewIndex
        simp only [hempty, if_true]
        exact ⟨_, rfl, hsame (remap_step h.remap hnewIndex)⟩
      · rw [if_neg hempty] at hnewIndex
        simp only [hempty, if_false]
        refine ⟨_, rfl, hsame (fun k => ?_)⟩
        rw [Dict.lookup_insert_eq, h.remap k]
        by_cases hk : k = idx
        · rw [if_pos hk, if_pos (List.mem_append_right _ (List.mem_singleton.mpr hk)), hk, hnewIndex]
        · simp only [hk, if_false, List.mem_append, List.mem_singleton, or_false]
  · have hidx' : ¬ IsTransceiver items idx := by
      rintro ⟨e', he', h'⟩
      rw [he] at he'
      cases he'
      exact htrans (htype.trans h')
    have hentries := hvisit.pass hidx'
    have hremap := remap_step h.remap (newIndex_of_not hidx')
    rw [if_neg htrans]
    by_cases hc : this.type = "chassis"
    · have hyes : isChassis items idx = true := by
        rw [hchassis, decide_eq_true_eq, ← correctType_eq_chassis, ← htype, hc]
      rw [if_pos hc]
      exact ⟨_, rfl, hentries, hremap, by rw [chassis_step h.chassis, hyes]; rfl⟩
    · have hnot : isChassis items idx = false := by
        rw [hchassis, decide_eq_false_iff_not, ← correctType_eq_chassis, ← htype]
        exact hc
      rw [if_neg hc]
      split_ifs
      · exact ⟨_, rfl, hentries, hremap, by rw [chassis_step h.chassis, hnot]; rfl⟩
      · exact ⟨_, rfl, hentries, hremap, by rw [chassis_step h.chassis, hnot]; rfl⟩

/-- A turn raises where a transceiver is not in the tree. -/
theorem Scanned.mem_of_ok {visited : List Value} {s s' : Scan} {idx : Value}
    (h : Scanned o ports items t visited s) (hnew : idx ∉ visited)
    (hs' : scanEntity o ports t s idx = .ok s') (hidx : IsTransceiver items idx) :
    idx ∈ t.nodes := by
  by_contra hout
  obtain ⟨e, he, htype⟩ := hidx
  obtain ⟨v, hv, -⟩ := h.entries.entry idx e he
  rw [if_neg hnew] at hv
  have htype' : (correctType { { e with parentIndex := v } with
      parentIndex := .str v.toText }).type = "transceiver" := by
    rw [correctType_parent, correctType_parent]
    exact htype
  unfold scanEntity at hs'
  rw [itemAt_eq_ok.mpr hv, Except.ok_bind, if_pos htype', walkTo,
    Forest.find_eq_none.mpr hout] at hs'
  cases hs'

theorem Scanned.start : Scanned o ports items t [] ⟨items, ∅, [], ∅, ∅⟩ where
  entries := Entries.start
  remap := fun k => by rw [if_neg List.not_mem_nil]; exact AList.lookup_empty k
  chassis := rfl

variable (hkeys : Keyed items) (ht : TreeOf items t)
include hkeys ht

/-- **The first loop** does not raise where every transceiver is in the tree. -/
theorem scanLoop_spec (hok : ∀ k, IsTransceiver items k → k ∈ t.nodes) :
    ∃ s, (numeriseKeys items).foldlM (scanEntity o ports t) ⟨items, ∅, [], ∅, ∅⟩ = .ok s ∧
      Scanned o ports items t (numeriseKeys items) s := by
  let I : List Value → Scan → Prop := fun rest s =>
    ∃ visited, numeriseKeys items = visited ++ rest ∧ Scanned o ports items t visited s
  have hstep : ∀ idx rest s, I (idx :: rest) s →
      ∃ s', scanEntity o ports t s idx = .ok s' ∧ I rest s' := by
    rintro idx rest s ⟨visited, hks, h⟩
    have hmem : idx ∈ numeriseKeys items := hks ▸ List.mem_append_right _ List.mem_cons_self
    have hnew : idx ∉ visited := fun hc => by
      have hnodup := nodup_numeriseKeys_of_keyed hkeys
      rw [hks] at hnodup
      exact (List.disjoint_of_nodup_append hnodup) hc List.mem_cons_self
    obtain ⟨s', hs', h'⟩ := h.step ht.nodup ht.mem ((mem_numeriseKeys_iff hkeys).mp hmem) hnew
      (hok idx)
    exact ⟨s', hs', visited ++ [idx],
      by rw [hks, List.append_assoc, List.singleton_append], h'⟩
  obtain ⟨s, hs, visited, hks, h⟩ := Except.foldlM_total hstep
    (⟨[], rfl, Scanned.start⟩ : I (numeriseKeys items) _)
  rw [List.append_nil] at hks
  exact ⟨s, hs, hks ▸ h⟩

/-- Where the first loop does not raise, every transceiver is in the tree. -/
theorem mem_of_scanLoop {s : Scan}
    (hs : (numeriseKeys items).foldlM (scanEntity o ports t) ⟨items, ∅, [], ∅, ∅⟩ = .ok s) :
    ∀ k, IsTransceiver items k → k ∈ t.nodes := by
  let I : List Value → Scan → Prop := fun rest s =>
    ∃ visited, numeriseKeys items = visited ++ rest ∧ Scanned o ports items t visited s ∧
      ∀ k ∈ visited, IsTransceiver items k → k ∈ t.nodes
  have hstep : ∀ idx rest s s', I (idx :: rest) s → scanEntity o ports t s idx = .ok s' →
      I rest s' := by
    rintro idx rest s s' ⟨visited, hks, h, hvisited⟩ hs'
    have hmem : idx ∈ numeriseKeys items := hks ▸ List.mem_append_right _ List.mem_cons_self
    have hnew : idx ∉ visited := fun hc => by
      have hnodup := nodup_numeriseKeys_of_keyed hkeys
      rw [hks] at hnodup
      exact (List.disjoint_of_nodup_append hnodup) hc List.mem_cons_self
    have hok := h.mem_of_ok hnew hs'
    obtain ⟨s'', hs'', h'⟩ := h.step ht.nodup ht.mem ((mem_numeriseKeys_iff hkeys).mp hmem) hnew hok
    rw [hs'] at hs''
    cases hs''
    refine ⟨visited ++ [idx], by rw [hks, List.append_assoc, List.singleton_append], h', ?_⟩
    intro k hk
    rcases List.mem_append.mp hk with hk | hk
    · exact hvisited k hk
    · exact List.mem_singleton.mp hk ▸ hok
  obtain ⟨visited, hks, -, hvisited⟩ := Except.foldlM_rest hstep
    (⟨[], rfl, Scanned.start, fun _ hc => absurd hc List.not_mem_nil⟩ :
      I (numeriseKeys items) _) hs
  rw [List.append_nil] at hks
  intro k hk
  have hmem : k ∈ items := Dict.mem_iff_lookup.mpr (hk.imp (fun e he => he.1))
  exact hvisited k (hks ▸ (mem_numeriseKeys_iff hkeys).mpr hmem) hk

end Scan

end Entities
