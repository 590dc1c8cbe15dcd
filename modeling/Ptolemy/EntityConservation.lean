/-
# What becomes of the entities

The first loop raises where a transceiver is not in the tree.  A turn of the
second loop raises only at a transceiver that the tree has at the top, or
directly under another one: there `reattach_as` goes through the nodes under the
old index, and one that was visited before may have left the table.  After the
loops the only chassis has to be there still, and one of several chassis has to
have a model.

In every other case each entity with a serial, each fan and each entity at the
top level is yielded once, a transceiver possibly at the index of its port.
-/
import Ptolemy.EntityClean
import Ptolemy.TreeCompleteness

namespace Entities

section Loop

variable {o : KeyOrder} {ports : Ports} {items : Items} {t : Tree}

/-! ## The second loop -/

variable (items t) in
/-- The tree has `k` at the top, or directly under a transceiver. -/
def Adrift (k : Value) : Prop := k ∈ t.keys ∨ UnderTransceiver items t k

variable (o ports items t) in
/-- Of the entries that the tree has under `T`, none is removed or gets another index before `T` is
visited. -/
def Whole (T : Value) : Prop :=
  ∀ c, Under t T c → Before items c T → dropped items c = false ∧ newIndex o ports items t c = none

variable (h : Setting o ports items t)
include h

/-- An entry with an index of its own is found there as long as it has not been visited, and after
that if it stays as it is. -/
theorem Cleaned.mem_iff {visited : List Value} {tr : Tree} {its : Items}
    (hc : Cleaned o ports items t visited tr its) {k : Value} (hk : k ∈ items) :
    k ∈ its ↔ k ∉ visited ∨ (dropped items k = false ∧ newIndex o ports items t k = none) := by
  obtain ⟨e, he⟩ := Dict.mem_iff_lookup.mp hk
  constructor
  · intro hmem
    by_cases hv : k ∈ visited
    · refine Or.inr ?_
      obtain ⟨k', hk', hkept, heq⟩ := hc.only k hmem
      have hsame : k' = k := by
        by_contra hne
        exact h.currentIndex_ne _ hk hne heq.symm
      subst hsame
      refine ⟨Bool.eq_false_iff.mpr fun hdrop => hkept ⟨hdrop, hv⟩, ?_⟩
      by_contra hsome
      rw [currentIndex, if_pos hv] at heq
      obtain ⟨p, hp⟩ := Option.ne_none_iff_exists'.mp hsome
      rw [hp, Option.getD_some] at heq
      exact (h.nameLike_new hp).1 (heq ▸ hk)
    · exact Or.inl hv
  · intro hcase
    rcases hc.entry k e he with ⟨hdrop, hv⟩ | ⟨e', he', -⟩
    · rcases hcase with hnot | ⟨hkeep, -⟩
      · exact absurd hv hnot
      · cases hdrop.symm.trans hkeep
    · have hcurrent : currentIndex o ports items t visited k = k := by
        rcases hcase with hnot | ⟨-, hnone⟩
        · exact currentIndex_of_notMem hnot
        · rw [currentIndex, hnone, Option.getD_none, ite_self]
      rw [hcurrent] at he'
      exact Dict.mem_iff_lookup.mpr ⟨e', he'⟩

/-- Where the tree has a transceiver under its parent, or its children are still there, it can get
its new index. -/
theorem Cleaned.movable {done rest : List Value} {tr : Tree} {its : Items} {T : Value}
    (hc : Cleaned o ports items t done tr its) (hks : numeriseKeys items = done ++ T :: rest)
    (hwhole : newIndex o ports items t T ≠ none → dropped items T = false → Adrift items t T →
      Whole o ports items t T) :
    Movable o ports items t tr its T := by
  intro hsome hkeep d hd
  have hnodup := nodup_numeriseKeys_of_keyed h.dataset.keyed
  obtain ⟨p, hp⟩ := Option.ne_none_iff_exists'.mp hsome
  have hT : IsTransceiver items T := isTransceiver_of_newIndex hp
  have hchildren : Adrift items t T → ∀ c, Under tr T c → c ∈ its := by
    intro hadrift c hunder
    obtain ⟨hold, -⟩ := hc.loose h hT hunder
    refine (hc.mem_iff h (h.tree.mem c hold.mem)).mpr ?_
    by_cases hv : c ∈ done
    · exact Or.inr (hwhole hsome hkeep hadrift c hold ((before_iff hks hnodup).mpr hv))
    · exact Or.inl hv
  by_cases hnode : T ∈ tr.nodes
  · obtain ⟨q, hq⟩ := Forest.exists_mem_links hnode none
    cases q with
    | none => exact Or.inr (hchildren (Or.inl (hc.top T hq)))
    | some q =>
      rcases hc.link q T hq with ⟨-, ⟨e, he, rfl⟩, -⟩ | ⟨-, hunder, -⟩
      · rw [hd] at he
        cases he
        exact Or.inl hq
      · exact Or.inr (hchildren (Or.inr hunder))
  · exact Or.inr (fun c hunder => absurd hunder.mem_parent hnode)

/-- **The second loop** does not raise where the transceivers find their children. -/
theorem exists_cleanLoop {remap : Dict Value Value} {its : Items}
    (hremap : ∀ k ∈ numeriseKeys items, remap.lookup k = newIndex o ports items t k)
    (hstart : Cleaned o ports items t [] t its)
    (hwhole : ∀ T, newIndex o ports items t T ≠ none → dropped items T = false →
      Adrift items t T → Whole o ports items t T) :
    ∃ s, (numeriseKeys items).foldlM (cleanEntity o remap) (t, its) = .ok s := by
  have hnodup := nodup_numeriseKeys_of_keyed h.dataset.keyed
  let I : List Value → Tree × Items → Prop := fun rest s =>
    ∃ done, numeriseKeys items = done ++ rest ∧ Cleaned o ports items t done s.1 s.2
  have hstep : ∀ idx rest s, I (idx :: rest) s →
      ∃ s', cleanEntity o remap s idx = .ok s' ∧ I rest s' := by
    rintro idx rest s ⟨done, hks, hc⟩
    have hmem : idx ∈ numeriseKeys items := hks ▸ List.mem_append_right _ List.mem_cons_self
    have hidx := (mem_numeriseKeys_iff h.dataset.keyed).mp hmem
    have hnew : idx ∉ done := fun hv =>
      lt_irrefl _ ((before_iff hks hnodup).mpr hv)
    obtain ⟨s', hs', hturned⟩ := (hc.exists_turned h (hremap idx hmem) hidx hnew).1
      (hc.movable h hks (hwhole idx))
    exact ⟨s', hs', done ++ [idx], by rw [hks, List.append_assoc, List.singleton_append],
      hc.turned h hidx hnew hturned⟩
  obtain ⟨s, hs, -⟩ := Except.foldlM_total hstep (⟨[], rfl, hstart⟩ : I (numeriseKeys items) (t, its))
  exact ⟨s, hs⟩

omit h in
variable (items t) in
/-- A transceiver at the top of the tree stays there with what is under it, until it is visited. -/
def Standing (visited : List Value) (tr : Tree) : Prop :=
  ∀ T ∈ t.keys, IsTransceiver items T → T ∉ visited →
    (none, T) ∈ tr.links none ∧ ∀ c, Under t T c → Under tr T c

theorem Setting.not_dropped_of_root {k : Value} (hk : k ∈ t.keys) : dropped items k = false := by
  have hroot := h.tree.top k hk
  obtain ⟨e, he, -⟩ := id hroot
  exact Bool.eq_false_iff.mpr fun hdrop =>
    ((dropped_eq he).mp hdrop).1 (h.atTop_of_root he hroot)

omit h in
/-- **A turn leaves the other transceivers at the top as they are.** -/
theorem Standing.turned {visited : List Value} {tr tr' : Tree} {its its' : Items} {idx : Value}
    (hs : Standing items t visited tr) (hc : Cleaned o ports items t visited tr its)
    (hidx : idx ∈ items) (hnew : idx ∉ visited)
    (ht : Turned o ports items t tr its idx tr' its') :
    Standing items t (visited ++ [idx]) tr' := by
  intro T hroot hT hv
  rw [List.mem_append, List.mem_singleton, not_or] at hv
  obtain ⟨hlink, hunder⟩ := hs T hroot hT hv.1
  have hentry : ∀ e', its.lookup idx = some e' → idx ∈ t.nodes → e'.parentIndex ≠ T := by
    intro e' he' hnode hq
    obtain ⟨e, he⟩ := Dict.mem_iff_lookup.mp hidx
    obtain ⟨d, hd, hentry⟩ := hc.entry_of_notMem he hnew
    rw [he'] at hd
    cases hd
    exact hentry.notTransceiver hnode (hq ▸ hT)
  cases ht with
  | removed hdrop he' hreg hlookup =>
    obtain ⟨hlink', hunder'⟩ := hreg.stay T hlink
    exact ⟨hlink', fun c hcT => hunder' hv.2 c (hunder c hcT)
      (fun hself => hentry _ he' (hself.2 ▸ hcT.mem) hself.1.symm)⟩
  | @reattached e' p tr' its' hkeep hp he' hrenamed hadded hlookup =>
    by_cases hq : Under tr e'.parentIndex idx
    · have hlinks := (hrenamed hq).links
      refine ⟨(hlinks none T).mpr (Or.inl ⟨hlink, by simp, hv.2⟩), fun c hcT =>
        (hlinks (some T) c).mpr (Or.inl ⟨hunder c hcT, fun hc => hv.2 (Option.some.inj hc), ?_⟩)⟩
      rintro rfl
      exact hentry e' he' hcT.mem (hq.unique hc.nodup (hunder c hcT))
    · have hlinks := (hadded hq).links
      exact ⟨(hlinks none T).mpr (Or.inl hlink), fun c hcT =>
        (hlinks (some T) c).mpr (Or.inl (hunder c hcT))⟩
  | passed hkeep hnone => exact ⟨hlink, hunder⟩

/-- **A second loop that does not raise** keeps the invariant, and the transceivers at the top of
the tree have found their children. -/
theorem cleanLoop_spec {remap : Dict Value Value} {its : Items} {s : Tree × Items}
    (hremap : ∀ k ∈ numeriseKeys items, remap.lookup k = newIndex o ports items t k)
    (hstart : Cleaned o ports items t [] t its)
    (hs : (numeriseKeys items).foldlM (cleanEntity o remap) (t, its) = .ok s) :
    Cleaned o ports items t (numeriseKeys items) s.1 s.2 ∧
      ∀ T ∈ t.keys, newIndex o ports items t T ≠ none → Whole o ports items t T := by
  have hnodup := nodup_numeriseKeys_of_keyed h.dataset.keyed
  let I : List Value → Tree × Items → Prop := fun rest s =>
    ∃ done, numeriseKeys items = done ++ rest ∧ Cleaned o ports items t done s.1 s.2 ∧
      Standing items t done s.1 ∧
      ∀ T ∈ t.keys, T ∈ done → newIndex o ports items t T ≠ none → Whole o ports items t T
  have hstep : ∀ idx rest s s', I (idx :: rest) s → cleanEntity o remap s idx = .ok s' →
      I rest s' := by
    rintro idx rest s s' ⟨done, hks, hc, hstanding, hdone⟩ hs'
    have hmem : idx ∈ numeriseKeys items := hks ▸ List.mem_append_right _ List.mem_cons_self
    have hidx := (mem_numeriseKeys_iff h.dataset.keyed).mp hmem
    have hnew : idx ∉ done := fun hv => lt_irrefl _ ((before_iff hks hnodup).mpr hv)
    obtain ⟨hrun, hok⟩ := hc.exists_turned h (hremap idx hmem) hidx hnew
    have hmovable := hok s' hs'
    obtain ⟨s'', hs'', hturned⟩ := hrun hmovable
    obtain rfl : s' = s'' := Except.ok.inj (hs'.symm.trans hs'')
    refine ⟨done ++ [idx], by rw [hks, List.append_assoc, List.singleton_append],
      hc.turned h hidx hnew hturned, hstanding.turned hc hidx hnew hturned,
      fun T hT hv hsome => ?_⟩
    rcases List.mem_append.mp hv with hv | hv
    · exact hdone T hT hv hsome
    -- the transceiver has been visited in this turn
    obtain rfl := List.mem_singleton.mp hv
    obtain ⟨p, hp⟩ := Option.ne_none_iff_exists'.mp hsome
    obtain ⟨hlink, hunder⟩ := hstanding T hT (isTransceiver_of_newIndex hp) hnew
    obtain ⟨e, he⟩ := Dict.mem_iff_lookup.mp hidx
    obtain ⟨e', he', -⟩ := hc.entry_of_notMem he hnew
    intro c hcT hbefore
    have hcits : c ∈ s.2 := by
      rcases hmovable hsome (h.not_dropped_of_root hT) e' he' with hq | hall
      · cases Forest.links_unique hc.nodup hlink hq
      · exact hall c (hunder c hcT)
    exact ((hc.mem_iff h (h.tree.mem c hcT.mem)).mp hcits).resolve_left
      (fun hnot => hnot ((before_iff hks hnodup).mp hbefore))
  obtain ⟨done, hks, hc, -, hdone⟩ := Except.foldlM_rest hstep
    (⟨[], rfl, hstart, fun T hT _ _ => ⟨Forest.mem_links_of_mem_keys hT none, fun _ hc => hc⟩,
      fun _ _ hc => absurd hc List.not_mem_nil⟩ : I (numeriseKeys items) (t, its)) hs
  rw [List.append_nil] at hks
  rw [← hks] at hc hdone
  exact ⟨hc, fun T hT => hdone T hT
    ((mem_numeriseKeys_iff h.dataset.keyed).mpr (h.tree.mem T (Forest.mem_nodes_of_mem_keys hT)))⟩

end Loop

/-! ## The chassis -/

/-- The entries of `cs` may have got software and a model; all else is as before. -/
structure Filled (cs : List Value) (its its' : Items) : Prop where
  entry : ∀ k e, its.lookup k = some e → ∃ e', its'.lookup k = some e' ∧
    e'.type = e.type ∧ e'.description = e.description ∧ e'.serial = e.serial
  rest : ∀ k, k ∉ cs → its'.lookup k = its.lookup k
  only : ∀ k ∈ its', k ∈ its

theorem Filled.refl (cs : List Value) (its : Items) : Filled cs its its where
  entry := fun _ e he => ⟨e, he, rfl, rfl, rfl⟩
  rest := fun _ _ => rfl
  only := fun _ hk => hk

theorem Filled.trans {cs : List Value} {its its₁ its₂ : Items} (h : Filled cs its its₁)
    (h' : Filled cs its₁ its₂) : Filled cs its its₂ where
  entry := fun k e he => by
    obtain ⟨e₁, he₁, htype₁, hdescription₁, hserial₁⟩ := h.entry k e he
    obtain ⟨e₂, he₂, htype₂, hdescription₂, hserial₂⟩ := h'.entry k e₁ he₁
    exact ⟨e₂, he₂, htype₂.trans htype₁, hdescription₂.trans hdescription₁,
      hserial₂.trans hserial₁⟩
  rest := fun k hk => (h'.rest k hk).trans (h.rest k hk)
  only := fun k hk => h.only k (h'.only k hk)

theorem Filled.mono {cs cs' : List Value} {its its' : Items} (h : Filled cs its its')
    (hsub : cs ⊆ cs') : Filled cs' its its' where
  entry := h.entry
  rest := fun k hk => h.rest k (fun hc => hk (hsub hc))
  only := h.only

theorem Filled.insert {its : Items} {c : Value} {d d' : Entity} (hd : its.lookup c = some d)
    (htype : d'.type = d.type) (hdescription : d'.description = d.description)
    (hserial : d'.serial = d.serial) : Filled [c] its (AList.insert c d' its) where
  entry := fun k e he => by
    rw [Dict.lookup_insert_eq]
    split_ifs with hk
    · subst hk
      obtain rfl := Option.some.inj (hd.symm.trans he)
      exact ⟨d', rfl, htype, hdescription, hserial⟩
    · exact ⟨e, he, rfl, rfl, rfl⟩
  rest := fun k hk => by
    rw [Dict.lookup_insert_eq, if_neg (fun hc => hk (List.mem_singleton.mpr hc))]
  only := fun k hk => by
    rcases (AList.mem_insert its).mp hk with rfl | hk
    · exact Dict.mem_iff_lookup.mpr ⟨d, hd⟩
    · exact hk

theorem Filled.mem {cs : List Value} {its its' : Items} (h : Filled cs its its') {k : Value}
    (hk : k ∈ its) : k ∈ its' := by
  obtain ⟨e, he⟩ := Dict.mem_iff_lookup.mp hk
  obtain ⟨e', he', -⟩ := h.entry k e he
  exact Dict.mem_iff_lookup.mpr ⟨e', he'⟩

/-- What an entry is after the filling, it was before. -/
theorem Filled.exists_before {cs : List Value} {its its' : Items} (h : Filled cs its its')
    {k : Value} {e' : Entity} (he' : its'.lookup k = some e') :
    ∃ e, its.lookup k = some e ∧ e'.type = e.type := by
  obtain ⟨e, he⟩ := Dict.mem_iff_lookup.mp (h.only k (Dict.mem_iff_lookup.mpr ⟨e', he'⟩))
  obtain ⟨e'', he'', htype, -⟩ := h.entry k e he
  obtain rfl := Option.some.inj (he'.symm.trans he'')
  exact ⟨e, he, htype⟩

/-- The only chassis is filled wherever it is still there. -/
theorem fillChassis_spec (info : Option String) (s : Scan) (its : Items) (c : Value) :
    (c ∈ its → ∃ its', fillChassis info s its c = .ok its' ∧ Filled [c] its its') ∧
      ∀ its', fillChassis info s its c = .ok its' → c ∈ its := by
  refine ⟨fun hc => ?_, fun its' h => ?_⟩
  · obtain ⟨d, hd⟩ := Dict.mem_iff_lookup.mp hc
    unfold fillChassis
    rw [itemAt_eq_ok.mpr hd, Except.ok_bind]
    refine ⟨_, rfl, Filled.insert hd ?_ ?_ ?_⟩ <;> split_ifs <;> rfl
  · unfold fillChassis at h
    obtain ⟨d, hd, -⟩ := Except.bind_eq_ok.mp h
    exact Dict.mem_iff_lookup.mpr ⟨d, itemAt_eq_ok.mp hd⟩

/-- The first half of filling one of several chassis: its only module gives it the software. -/
def copyFromModule (o : KeyOrder) (topology : Tree) (items : Items) (c : Value) :
    Except Exn Items := do
  let kinds ← (childrenIds o c topology).mapM (fun m => do
    let d ← itemAt items m
    pure (m, d.type))
  match kinds.filter (fun p => p.2 = "module") with
  | [(m, _)] => do
    let d ← itemAt items c
    let module ← itemAt items m
    pure (AList.insert c { d with
      swRev := if d.swRev = none then module.swRev else d.swRev
      fwRev := if d.fwRev = none then module.fwRev else d.fwRev } items)
  | _ => pure items

/-- The second half: a fabric extender tells its model in its description. -/
def nameFromDescription (items : Items) (c : Value) : Except Exn Items :=
  match items.lookup c with
  | none => pure items
  | some d =>
    match d.model with
    | none => .error (.attributeError "'NoneType' object has no attribute 'startswith'")
    | some model =>
      if "Fabric Extender Module".toList <+: model.toList then
        match fexModel d.description.toList with
        | none => pure items
        | some v => pure (AList.insert c { d with
            model := some (String.ofList (replaceFrom "Nexus".toList "N2K-C".toList 0 v)) } items)
      else pure items

theorem fillFromModule_eq (o : KeyOrder) (topology : Tree) (items : Items) (c : Value) :
    fillFromModule o topology items c
      = copyFromModule o topology items c >>= fun items => nameFromDescription items c := by
  unfold fillFromModule copyFromModule
  rw [bind_assoc]
  refine congrArg _ (funext fun kinds => ?_)
  generalize kinds.filter (fun p => p.2 = "module") = modules
  match modules with
  | [] => rfl
  | [(m, _)] =>
    dsimp only
    cases itemAt items c with
    | error e => rfl
    | ok d => cases itemAt items m <;> rfl
  | _ :: _ :: _ => rfl

section Filling

variable {tr : Tree} {its : Items} {c : Value}

/-- The children of a chassis are in the table, and it is there itself if one of them is a
module. -/
structure Housed (tr : Tree) (its : Items) (c : Value) : Prop where
  child : ∀ m, Under tr c m → m ∈ its
  module : ∀ m e, Under tr c m → its.lookup m = some e → e.type = "module" → c ∈ its

theorem Housed.filled {cs : List Value} {its' : Items} (h : Housed tr its c)
    (hf : Filled cs its its') : Housed tr its' c where
  child := fun m hm => hf.mem (h.child m hm)
  module := fun m e hm he htype => by
    obtain ⟨d, hd, heq⟩ := hf.exists_before he
    exact hf.mem (h.module m d hm hd (heq.symm.trans htype))

theorem copyFromModule_spec (o : KeyOrder) (hnodup : tr.nodes.Nodup) (h : Housed tr its c) :
    ∃ its', copyFromModule o tr its c = .ok its' ∧ Filled [c] its its' ∧
      (its'.lookup c).map Entity.model = (its.lookup c).map Entity.model := by
  have hkinds : (childrenIds o c tr).mapM (fun m => do
      let d ← itemAt its m
      pure (m, d.type))
      = .ok ((childrenIds o c tr).map (fun m => (m, ((its.lookup m).map Entity.type).getD ""))) := by
    refine Except.mapM_eq_map (fun m hm => ?_)
    obtain ⟨d, hd⟩ := Dict.mem_iff_lookup.mp (h.child m ((mem_children hnodup o).mp hm))
    rw [itemAt_eq_ok.mpr hd, hd]
    rfl
  unfold copyFromModule
  rw [hkinds, Except.ok_bind]
  split
  · rename_i m kind hfilter
    have hmem : (m, kind) ∈ ((childrenIds o c tr).map
        (fun m => (m, ((its.lookup m).map Entity.type).getD ""))).filter (fun p => p.2 = "module") := by
      rw [hfilter]
      exact List.mem_singleton_self _
    obtain ⟨hmap, hkind⟩ := List.mem_filter.mp hmem
    obtain ⟨m', hm', heq⟩ := List.mem_map.mp hmap
    obtain ⟨rfl, rfl⟩ := Prod.mk.inj heq
    have hunder := (mem_children hnodup o).mp hm'
    obtain ⟨e, he⟩ := Dict.mem_iff_lookup.mp (h.child m' hunder)
    rw [he] at hkind
    obtain ⟨d, hd⟩ := Dict.mem_iff_lookup.mp (h.module m' e hunder he (of_decide_eq_true hkind))
    rw [itemAt_eq_ok.mpr hd, Except.ok_bind, itemAt_eq_ok.mpr he, Except.ok_bind]
    refine ⟨_, rfl, Filled.insert hd rfl rfl rfl, ?_⟩
    rw [AList.lookup_insert, hd]
    rfl
  · exact ⟨its, rfl, Filled.refl _ _, rfl⟩

theorem nameFromDescription_spec :
    ((∀ d, its.lookup c = some d → d.model ≠ none) →
      ∃ its', nameFromDescription its c = .ok its' ∧ Filled [c] its its') ∧
    ∀ its', nameFromDescription its c = .ok its' →
      ∀ d, its.lookup c = some d → d.model ≠ none := by
  unfold nameFromDescription
  cases hd : its.lookup c with
  | none => exact ⟨fun _ => ⟨its, rfl, Filled.refl _ _⟩, fun _ _ d hd => by cases hd⟩
  | some d =>
    refine ⟨fun hmodel => ?_, fun its' h d' hd' hnone => ?_⟩
    · obtain ⟨model, hm⟩ := Option.ne_none_iff_exists'.mp (hmodel d rfl)
      simp only [hm]
      split_ifs
      · cases fexModel d.description.toList with
        | none => exact ⟨its, rfl, Filled.refl _ _⟩
        | some v => exact ⟨_, rfl, Filled.insert hd rfl rfl rfl⟩
      · exact ⟨its, rfl, Filled.refl _ _⟩
    · obtain rfl := Option.some.inj hd'
      simp only [hnone] at h
      cases h

/-- **One of several chassis** is filled unless it has no model. -/
theorem fillFromModule_spec (o : KeyOrder) (hnodup : tr.nodes.Nodup) (h : Housed tr its c) :
    ((∀ d, its.lookup c = some d → d.model ≠ none) →
      ∃ its', fillFromModule o tr its c = .ok its' ∧ Filled [c] its its') ∧
    ∀ its', fillFromModule o tr its c = .ok its' →
      Filled [c] its its' ∧ ∀ d, its.lookup c = some d → d.model ≠ none := by
  obtain ⟨its₁, hcopy, hfilled, hmodel⟩ := copyFromModule_spec o hnodup h
  have hiff : (∀ d, its₁.lookup c = some d → d.model ≠ none) ↔
      ∀ d, its.lookup c = some d → d.model ≠ none := by
    constructor
    · intro hall d hd hnone
      rw [hd] at hmodel
      obtain ⟨d₁, hd₁, heq⟩ := Option.map_eq_some_iff.mp hmodel
      exact hall d₁ hd₁ (heq.trans hnone)
    · intro hall d hd hnone
      rw [hd] at hmodel
      obtain ⟨d₁, hd₁, heq⟩ := Option.map_eq_some_iff.mp hmodel.symm
      exact hall d₁ hd₁ (heq.trans hnone)
  rw [fillFromModule_eq, hcopy, Except.ok_bind]
  obtain ⟨hrun, hok⟩ := @nameFromDescription_spec its₁ c
  refine ⟨fun hall => ?_, fun its' hits' => ?_⟩
  · obtain ⟨its', hits', hfilled'⟩ := hrun (hiff.mpr hall)
    exact ⟨its', hits', hfilled.trans hfilled'⟩
  · have hall := hok its' hits'
    obtain ⟨its'', hits'', hfilled'⟩ := hrun hall
    obtain rfl := Except.ok.inj (hits'.symm.trans hits'')
    exact ⟨hfilled.trans hfilled', hiff.mp hall⟩

/-- **The chassis are filled** where each one that is there has a model. -/
theorem foldlM_fillFromModule (o : KeyOrder) (hnodup : tr.nodes.Nodup) {cs : List Value}
    (hcs : cs.Nodup) (h : ∀ c ∈ cs, Housed tr its c) :
    ((∀ c ∈ cs, ∀ d, its.lookup c = some d → d.model ≠ none) →
      ∃ its', cs.foldlM (fillFromModule o tr) its = .ok its' ∧ Filled cs its its') ∧
    ∀ its', cs.foldlM (fillFromModule o tr) its = .ok its' →
      ∀ c ∈ cs, ∀ d, its.lookup c = some d → d.model ≠ none := by
  induction cs generalizing its with
  | nil => exact ⟨fun _ => ⟨its, rfl, Filled.refl _ _⟩, fun _ _ c hc => absurd hc List.not_mem_nil⟩
  | cons c cs ih =>
    obtain ⟨hc, hcs⟩ := List.nodup_cons.mp hcs
    obtain ⟨hrun, hok⟩ := fillFromModule_spec o hnodup (h c List.mem_cons_self)
    have hrest : ∀ {its₁}, Filled [c] its its₁ → ∀ c' ∈ cs, its₁.lookup c' = its.lookup c' :=
      fun hf c' hc' => hf.rest c' (fun heq => hc (List.mem_singleton.mp heq ▸ hc'))
    have hhoused : ∀ {its₁}, Filled [c] its its₁ → ∀ c' ∈ cs, Housed tr its₁ c' :=
      fun hf c' hc' => (h c' (List.mem_cons_of_mem c hc')).filled hf
    refine ⟨fun hall => ?_, fun its' hits' c' hc' => ?_⟩
    · obtain ⟨its₁, hits₁, hf⟩ := hrun (hall c List.mem_cons_self)
      obtain ⟨its', hits', hf'⟩ := (ih hcs (hhoused hf)).1 (fun c' hc' d hd =>
        hall c' (List.mem_cons_of_mem c hc') d (hrest hf c' hc' ▸ hd))
      refine ⟨its', by rw [List.foldlM_cons, hits₁, Except.ok_bind, hits'], ?_⟩
      exact (hf.mono (List.cons_subset_cons c (List.nil_subset cs))).trans
        (hf'.mono (List.subset_cons_self c cs))
    · rw [List.foldlM_cons] at hits'
      obtain ⟨its₁, hits₁, hits'⟩ := Except.bind_eq_ok.mp hits'
      obtain ⟨hf, hmodel⟩ := hok its₁ hits₁
      rcases List.mem_cons.mp hc' with rfl | hc'
      · exact hmodel
      · rw [← hrest hf c' hc']
        exact (ih hcs (hhoused hf)).2 its' hits' c' hc'

/-- Nothing raises at the chassis: the only one is there, and of several ones those that are there
have a model. -/
def Fillable (its : Items) : List Value → Prop
  | [c] => c ∈ its
  | cs => ∀ c ∈ cs, ∀ d, its.lookup c = some d → d.model ≠ none

theorem fillAll_spec (o : KeyOrder) (info : Option String) {s : Scan} (hnodup : tr.nodes.Nodup)
    (hcs : s.chassisIds.Nodup) (h : ∀ c ∈ s.chassisIds, Housed tr its c) :
    (Fillable its s.chassisIds →
      ∃ its', fillAll o info s tr its = .ok its' ∧ Filled s.chassisIds its its') ∧
    ∀ its', fillAll o info s tr its = .ok its' → Fillable its s.chassisIds := by
  unfold fillAll
  generalize s.chassisIds = cs at hcs h ⊢
  match cs with
  | [] => exact foldlM_fillFromModule o hnodup hcs h
  | [c] => exact fillChassis_spec info s its c
  | c :: c' :: cs => exact foldlM_fillFromModule o hnodup hcs h

end Filling

/-! ## What is yielded -/

/-- An entity with a serial, a fan, or an entity at the top level. -/
def Keeps (e : Entity) : Prop := e.serial ≠ none ∨ e.type = "fan" ∨ AtTop e

theorem dropped_eq_false {items : Items} {k : Value} {e : Entity} (he : items.lookup k = some e) :
    dropped items k = false ↔ Keeps e := by
  rw [← Bool.not_eq_true, dropped_eq he, Keeps]
  tauto

/-- Nothing is lost at the chassis: the only one is kept, and of several ones each that is kept has
a model. -/
structure ChassisKept (items : Items) : Prop where
  only : ∀ c, isChassis items c → (∀ c', isChassis items c' → c' = c) → dropped items c = false
  model : ∀ c c' e, isChassis items c → isChassis items c' → c ≠ c' → dropped items c = false →
    items.lookup c = some e → e.model ≠ none

section Whole

variable {o : KeyOrder} {ports : Ports} {items : Items} {t : Tree}

theorem not_isTransceiver_of_isChassis {c : Value} (hc : isChassis items c = true) :
    ¬ IsTransceiver items c := by
  rintro ⟨e, he, htype⟩
  rw [isChassis, he, Option.any_some, decide_eq_true_eq] at hc
  rw [(correctType_eq_chassis e).mpr hc] at htype
  exact absurd htype (by decide)

theorem mem_of_isChassis {c : Value} (hc : isChassis items c = true) : c ∈ items := by
  cases he : items.lookup c with
  | none =>
    rw [isChassis, he] at hc
    cases hc
  | some e => exact Dict.mem_iff_lookup.mpr ⟨e, he⟩

variable (h : Setting o ports items t)
include h

/-- The tree and the table agree on what a chassis houses. -/
theorem Cleaned.housed {visited : List Value} {tr : Tree} {its : Items}
    (hc : Cleaned o ports items t visited tr its) {c : Value} (hchassis : isChassis items c = true) :
    Housed tr its c := by
  have hagree : ∀ m, Under tr c m → Agree o ports items t its c m := by
    intro m hm
    rcases hc.link c m hm with ⟨-, hagree⟩ | ⟨⟨hT, -⟩ | hnew, -⟩
    · exact hagree
    · exact absurd hT (not_isTransceiver_of_isChassis hchassis)
    · exact absurd (mem_of_isChassis hchassis) (h.nameLike_isNew hnew).1
  refine ⟨fun m hm => ?_, fun m e hm he htype => ?_⟩
  · obtain ⟨⟨e, he, -⟩, -⟩ := hagree m hm
    exact Dict.mem_iff_lookup.mpr ⟨e, he⟩
  · rcases (hagree m hm).2 with hmem | hnew | hnew
    · exact hmem
    · exact absurd (mem_of_isChassis hchassis) (h.nameLike_isNew hnew).1
    · -- a transceiver at its port is no module
      obtain ⟨k, hk, hkept, heq⟩ := hc.only m (Dict.mem_iff_lookup.mpr ⟨e, he⟩)
      rcases currentIndex_cases (o := o) (t := t) visited k with hk' | ⟨-, hk'⟩
      · exact absurd (heq.trans hk' ▸ hk) (h.nameLike_isNew hnew).1
      · obtain ⟨d, hd, hdtype⟩ := isTransceiver_of_newIndex hk'
        rcases hc.entry k d hd with hgone | ⟨e', he', hentry⟩
        · exact absurd hgone hkept
        · rw [← heq, he] at he'
          obtain rfl := Option.some.inj he'
          exact absurd (htype.symm.trans (hentry.kept.type.trans hdtype)) (by decide)

/-- Whether the chassis can be filled is told by the table as it was. -/
theorem Cleaned.fillable_iff {tr : Tree} {its : Items}
    (hc : Cleaned o ports items t (numeriseKeys items) tr its) :
    Fillable its ((numeriseKeys items).filter (isChassis items)) ↔ ChassisKept items := by
  have hks : ∀ k ∈ items, k ∈ numeriseKeys items := fun k hk =>
    (mem_numeriseKeys_iff h.dataset.keyed).mpr hk
  have hthere : ∀ c, isChassis items c = true → (c ∈ its ↔ dropped items c = false) := by
    intro c hchassis
    have hmem := mem_of_isChassis hchassis
    rw [hc.mem_iff h hmem,
      newIndex_of_not (not_isTransceiver_of_isChassis hchassis)]
    exact ⟨fun hor => (hor.resolve_left (fun hn => hn (hks c hmem))).1, fun hd => Or.inr ⟨hd, rfl⟩⟩
  have hentry : ∀ c e, isChassis items c = true → items.lookup c = some e →
      ∀ d, its.lookup c = some d → d.model = e.model := by
    intro c e hchassis he d hd
    rcases hc.entry c e he with ⟨hdrop, -⟩ | ⟨e', he', hentry⟩
    · have hkeep := (hthere c hchassis).mp (Dict.mem_iff_lookup.mpr ⟨d, hd⟩)
      exact absurd (hdrop.symm.trans hkeep) (by decide)
    · rw [currentIndex, newIndex_of_not (not_isTransceiver_of_isChassis hchassis),
        Option.getD_none, ite_self, hd] at he'
      obtain rfl := Option.some.inj he'
      exact hentry.kept.model
  have hmem : ∀ c, c ∈ (numeriseKeys items).filter (isChassis items) ↔ isChassis items c = true :=
    fun c => List.mem_filter.trans (and_iff_right_of_imp (fun hc => hks c (mem_of_isChassis hc)))
  have hnodup := (nodup_numeriseKeys_of_keyed h.dataset.keyed).filter (isChassis items)
  generalize (numeriseKeys items).filter (isChassis items) = cs at hmem hnodup
  rcases cs with _ | ⟨c, _ | ⟨c', cs⟩⟩
  · have hnone : ∀ c, isChassis items c = true → False := fun c hc =>
      absurd ((hmem c).mpr hc) List.not_mem_nil
    exact ⟨fun _ => ⟨fun c hc => (hnone c hc).elim, fun c _ _ hc => (hnone c hc).elim⟩,
      fun _ c hc => absurd hc List.not_mem_nil⟩
  · have hc := (hmem c).mp (List.mem_singleton_self c)
    have hone : ∀ c', isChassis items c' = true → c' = c := fun c' hc' =>
      List.mem_singleton.mp ((hmem c').mpr hc')
    rw [Fillable, hthere c hc]
    refine ⟨fun hkeep => ⟨fun c' hc' _ => hone c' hc' ▸ hkeep, fun c' c'' e hc' hc'' hne => ?_⟩,
      fun hkept => hkept.only c hc hone⟩
    exact absurd ((hone c' hc').trans (hone c'' hc'').symm) hne
  · have hc := (hmem c).mp List.mem_cons_self
    have hc' := (hmem c').mp (List.mem_cons_of_mem c List.mem_cons_self)
    have hne : c ≠ c' := fun heq => (List.nodup_cons.mp hnodup).1 (heq ▸ List.mem_cons_self)
    rw [Fillable]
    · refine ⟨fun hall => ⟨fun b hb hone => ?_, fun b b' e hb hb' _ hkeep he => ?_⟩,
        fun hkept b hb d hd => ?_⟩
      · exact absurd ((hone c hc).trans (hone c' hc').symm) hne
      · obtain ⟨d, hd⟩ := Dict.mem_iff_lookup.mp ((hthere b hb).mpr hkeep)
        exact hentry b e hb he d hd ▸ hall b ((hmem b).mpr hb) d hd
      · have hb := (hmem b).mp hb
        have hkeep := (hthere b hb).mp (Dict.mem_iff_lookup.mpr ⟨d, hd⟩)
        obtain ⟨e, he⟩ := Dict.mem_iff_lookup.mp (mem_of_isChassis hb)
        obtain ⟨b', hb', hbb'⟩ : ∃ b', isChassis items b' = true ∧ b ≠ b' := by
          by_cases hbc : b = c
          · exact ⟨c', hc', hbc ▸ hne⟩
          · exact ⟨c, hc, hbc⟩
        exact hentry b e hb he d hd ▸ hkept.model b b' e hb hb' hbb' hkeep he
    · intro b hcons
      cases hcons

omit h in
/-- What is yielded at an index. -/
theorem filter_yields {its : Items} {j : Value} {e : Entity} (he : its.lookup j = some e) :
    (yields its).filter (fun y => y.physicalIndex = j) = [{ e with physicalIndex := j }] := by
  have hnodup : its.items.Nodup := by
    have hkeys : (its.items.map Prod.fst).Nodup := by
      rw [Dict.items_map_fst]
      exact its.keys_nodup
    exact hkeys.of_map
  have hfilter : (its.items.filter (fun p => p.1 = j)).Perm [(j, e)] := by
    rw [List.perm_ext_iff_of_nodup (hnodup.filter _) (List.nodup_singleton _)]
    rintro ⟨k, v⟩
    rw [List.mem_filter, Dict.mem_items, List.mem_singleton, Prod.mk.injEq, decide_eq_true_eq]
    constructor
    · rintro ⟨hv, rfl⟩
      exact ⟨rfl, Option.some.inj (hv.symm.trans he)⟩
    · rintro ⟨rfl, rfl⟩
      exact ⟨he, rfl⟩
  rw [yields, List.filter_map, show its.items.filter ((fun y : Entity => decide (y.physicalIndex = j)) ∘
      fun p => { p.2 with physicalIndex := p.1 }) = its.items.filter (fun p => p.1 = j) from rfl,
    List.perm_singleton.mp hfilter]
  rfl

/-- Each entity with a serial, each fan and each entity at the top level is yielded once, and no two
of them as one. -/
structure YieldedOnce (items : Items) (index : Value → Value) (ys : List Entity) : Prop where
  injective : ∀ k k' e e', items.lookup k = some e → items.lookup k' = some e' → Keeps e →
    Keeps e' → index k = index k' → k = k'
  once : ∀ k e, items.lookup k = some e → Keeps e →
    ∃ y, ys.filter (fun y => y.physicalIndex = index k) = [y] ∧
      y.type = (correctType e).type ∧ y.description = e.description ∧ y.serial = e.serial

/-- **Conservation**: nothing is raised, and each entity that is to be kept is yielded once, at its
index or, if it is a transceiver, at another one. -/
def Conserved (o : KeyOrder) (ports : Ports) (info : Option String) (items : Items) : Prop :=
  ∃ ys index, postNormaliseEntities o ports info items = .ok ys ∧
    (∀ k, index k ≠ k → IsTransceiver items k) ∧ YieldedOnce items index ys

omit h in
/-- The function, part by part. -/
theorem postNormaliseEntities_eq_ok {info : Option String} {ys : List Entity} :
    postNormaliseEntities o ports info items = .ok ys ↔
      ∃ t s c its, entityTree o items = .ok t ∧
        (numeriseKeys items).foldlM (scanEntity o ports t) ⟨items, ∅, [], ∅, ∅⟩ = .ok s ∧
        (numeriseKeys s.items).foldlM (cleanEntity o s.remap) (t, s.items) = .ok c ∧
        fillAll o info s c.1 c.2 = .ok its ∧ yields its = ys := by
  unfold postNormaliseEntities
  constructor
  · intro hys
    obtain ⟨t, ht, hys⟩ := Except.bind_eq_ok.mp hys
    obtain ⟨s, hs, hys⟩ := Except.bind_eq_ok.mp hys
    obtain ⟨c, hc, hys⟩ := Except.bind_eq_ok.mp hys
    obtain ⟨its, hits, hys⟩ := Except.bind_eq_ok.mp hys
    exact ⟨t, s, c, its, ht, hs, hc, hits, Except.ok.inj hys⟩
  · rintro ⟨t, s, c, its, ht, hs, hc, hits, rfl⟩
    rw [ht, Except.ok_bind, hs, Except.ok_bind, hc, Except.ok_bind]
    show (fillAll o info s c.1 c.2 >>= fun its => pure (yields its)) = _
    rw [hits]
    rfl

/-- What the first loop hands over. -/
theorem Setting.scanned {s : Scan} (hs : Scanned o ports items t (numeriseKeys items) s) :
    numeriseKeys s.items = numeriseKeys items ∧
      (∀ k ∈ numeriseKeys items, s.remap.lookup k = newIndex o ports items t k) ∧
      Cleaned o ports items t [] t s.items := by
  refine ⟨numeriseKeys_congr h.dataset.keyed fun k => ⟨hs.entries.only k, hs.entries.mem⟩,
    fun k hk => ?_, h.start hs⟩
  rw [hs.remap k, if_pos hk]

/-- Where the entries end up is another place for each that is kept. -/
theorem Setting.currentIndex_injective {visited : List Value} {k k' : Value} (hk : k ∈ items)
    (hk' : k' ∈ items)
    (heq : currentIndex o ports items t visited k = currentIndex o ports items t visited k') :
    k = k' := by
  rcases currentIndex_cases (o := o) (t := t) visited k with hown | ⟨-, hnew⟩
  · by_contra hne
    exact h.currentIndex_ne visited hk (Ne.symm hne) (heq.symm.trans hown)
  · rcases currentIndex_cases (o := o) (t := t) visited k' with hown' | ⟨-, hnew'⟩
    · by_contra hne
      exact h.currentIndex_ne visited hk' hne (heq.trans hown')
    · rw [heq] at hnew
      exact h.injective k k' _ hnew hnew'

/-- What is left in the table is yielded once. -/
theorem Cleaned.yieldedOnce {cs : List Value} {tr : Tree} {its its' : Items}
    (hc : Cleaned o ports items t (numeriseKeys items) tr its) (hf : Filled cs its its') :
    YieldedOnce items (currentIndex o ports items t (numeriseKeys items)) (yields its') := by
  refine ⟨fun k k' e e' he he' _ _ heq => h.currentIndex_injective
    (Dict.mem_iff_lookup.mpr ⟨e, he⟩) (Dict.mem_iff_lookup.mpr ⟨e', he'⟩) heq,
    fun k e he hkeep => ?_⟩
  rcases hc.entry k e he with ⟨hdrop, -⟩ | ⟨d, hd, hentry⟩
  · exact absurd (hdrop.symm.trans ((dropped_eq_false he).mpr hkeep)) (by decide)
  · obtain ⟨d', hd', htype, hdescription, hserial⟩ := hf.entry _ d hd
    exact ⟨_, filter_yields hd', htype.trans hentry.kept.type,
      hdescription.trans hentry.kept.description, hserial.trans hentry.kept.serial⟩

end Whole

/-- **What conserves the entities**: the names of ports are no indices, no entity called 0 is
removed or plugged in, every transceiver is in the tree, those at the top of it or directly under
another one find their children, and the chassis are found. -/
structure Undisturbed (o : KeyOrder) (ports : Ports) (items : Items) (t : Tree) : Prop where
  fresh : FreshPorts o ports items t
  zero : ¬ IsTransceiver items (.str "0") ∧ dropped items (.str "0") = false
  inTree : ∀ k, IsTransceiver items k → k ∈ t.nodes
  whole : ∀ T, newIndex o ports items t T ≠ none → dropped items T = false → Adrift items t T →
    Whole o ports items t T
  chassis : ChassisKept items

section Conserved

variable {o : KeyOrder} {ports : Ports} {info : Option String} {items : Items} {t : Tree}
  (hdata : Dataset items) (ht : entityTree o items = .ok t)
  (hinj : ∀ k k' p, newIndex o ports items t k = some p → newIndex o ports items t k' = some p →
    k = k')
include hdata ht hinj

theorem Undisturbed.conserved (hu : Undisturbed o ports items t) :
    Conserved o ports info items := by
  obtain ⟨t', ht', htree⟩ := entityTree_spec hdata.keyed o
  obtain rfl := Except.ok.inj (ht.symm.trans ht')
  have h : Setting o ports items t := ⟨hdata, hu.fresh, hinj, htree, hu.inTree, hu.zero⟩
  obtain ⟨s, hs, hscanned⟩ := @scanLoop_spec o ports items t hdata.keyed htree hu.inTree
  obtain ⟨hkeys, hremap, hstart⟩ := h.scanned hscanned
  obtain ⟨c, hc⟩ := exists_cleanLoop h hremap hstart hu.whole
  obtain ⟨hcleaned, -⟩ := cleanLoop_spec h hremap hstart hc
  have hchassis := hscanned.chassis
  have hnodup : s.chassisIds.Nodup :=
    hchassis ▸ (nodup_numeriseKeys_of_keyed hdata.keyed).filter (isChassis items)
  have hhoused : ∀ k ∈ s.chassisIds, Housed c.1 c.2 k := fun k hk =>
    hcleaned.housed h (List.mem_filter.mp (hchassis ▸ hk)).2
  obtain ⟨its, hits, hfilled⟩ := (fillAll_spec o info hcleaned.nodup hnodup hhoused).1
    (hchassis ▸ (hcleaned.fillable_iff h).mpr hu.chassis)
  refine ⟨yields its, currentIndex o ports items t (numeriseKeys items),
    postNormaliseEntities_eq_ok.mpr ⟨t, s, c, its, ht, hs, hkeys ▸ hc, hits, rfl⟩,
    fun k hk => ?_, hcleaned.yieldedOnce h hfilled⟩
  rcases currentIndex_cases (o := o) (t := t) (numeriseKeys items) k with hown | ⟨-, hnew⟩
  · exact absurd hown hk
  · exact isTransceiver_of_newIndex hnew

/-- Where no transceiver is under another one, nothing else is conserved. -/
theorem Undisturbed.of_conserved (hfresh : FreshPorts o ports items t)
    (hzero : ¬ IsTransceiver items (.str "0") ∧ dropped items (.str "0") = false)
    (hflat : ∀ T, IsTransceiver items T → ¬ UnderTransceiver items t T)
    (hconserved : Conserved o ports info items) : Undisturbed o ports items t := by
  obtain ⟨ys, _, hys, -⟩ := hconserved
  obtain ⟨t', s, c, its, ht', hs, hc, hits, -⟩ := postNormaliseEntities_eq_ok.mp hys
  obtain rfl := Except.ok.inj (ht.symm.trans ht')
  obtain ⟨t', ht', htree⟩ := entityTree_spec hdata.keyed o
  obtain rfl := Except.ok.inj (ht.symm.trans ht')
  have hin := mem_of_scanLoop hdata.keyed htree hs
  have h : Setting o ports items t := ⟨hdata, hfresh, hinj, htree, hin, hzero⟩
  obtain ⟨s', hs', hscanned⟩ := @scanLoop_spec o ports items t hdata.keyed htree hin
  obtain rfl := Except.ok.inj (hs.symm.trans hs')
  obtain ⟨hkeys, hremap, hstart⟩ := h.scanned hscanned
  rw [hkeys] at hc
  obtain ⟨hcleaned, hwhole⟩ := cleanLoop_spec h hremap hstart hc
  have hchassis := hscanned.chassis
  have hnodup : s.chassisIds.Nodup :=
    hchassis ▸ (nodup_numeriseKeys_of_keyed hdata.keyed).filter (isChassis items)
  have hhoused : ∀ k ∈ s.chassisIds, Housed c.1 c.2 k := fun k hk =>
    hcleaned.housed h (List.mem_filter.mp (hchassis ▸ hk)).2
  have hfillable := (fillAll_spec o info hcleaned.nodup hnodup hhoused).2 its hits
  rw [hchassis] at hfillable
  refine ⟨hfresh, hzero, hin, fun T hnew _ hadrift => ?_, (hcleaned.fillable_iff h).mp hfillable⟩
  obtain ⟨p, hp⟩ := Option.ne_none_iff_exists'.mp hnew
  exact hwhole T (hadrift.resolve_right (hflat T (isTransceiver_of_newIndex hp))) hnew

end Conserved

/-- Names of ports are no indices, an entity called 0 is neither removed nor plugged in, and no
transceiver is directly under another one. -/
structure Plain (o : KeyOrder) (ports : Ports) (items : Items) (t : Tree) : Prop where
  fresh : FreshPorts o ports items t
  zero : ¬ IsTransceiver items (.str "0") ∧ dropped items (.str "0") = false
  flat : ∀ T, IsTransceiver items T → ¬ UnderTransceiver items t T

/-- Ports whose names begin with `Gi`. -/
def giPorts : Ports where
  truncate s := if "Gi".toList <+: s.toList then some s else none
  extract s := if "Gi".toList <+: s.toList then some s else none

def chassisPart : Entity := { part 0 with type := "chassis", model := some "C1" }

def transceiverPart (p : Int) : Entity :=
  { part p with type := "transceiver", description := "Gi1/1", serial := some "S1" }

/-- Numbered entities are a dataset. -/
theorem Indexed.dataset {items : Items} (h : Indexed items) : Dataset items :=
  ⟨h.keyed, fun k e he => Or.inl (h.parent k e he)⟩

/-- A chassis with a transceiver. -/
def plugged : Items :=
  AList.insert (.str "1") chassisPart (AList.insert (.str "2") (transceiverPart 1) ∅)

/-- A transceiver whose parent is missing. -/
def unplugged : Items := AList.insert (.str "2") (transceiverPart 9) ∅

theorem lookup_plugged {k : Value} {e : Entity} (he : plugged.lookup k = some e) :
    (k = .str "1" ∧ e = chassisPart) ∨ (k = .str "2" ∧ e = transceiverPart 1) := by
  rw [plugged, Dict.lookup_insert_eq, Dict.lookup_insert_eq] at he
  split_ifs at he with h1 h2
  · exact Or.inl ⟨h1, (Option.some.inj he).symm⟩
  · exact Or.inr ⟨h2, (Option.some.inj he).symm⟩
  · rw [AList.lookup_empty] at he
    cases he

theorem dataset_plugged : Dataset plugged :=
  Indexed.dataset ((indexed_empty.insert 2 rfl).insert 1 rfl)

def pluggedTree : Tree := .entry (.str "1") (.entry (.str "2") .empty .empty) .empty

theorem isTransceiver_plugged {k : Value} (hk : IsTransceiver plugged k) : k = .str "2" := by
  obtain ⟨e, he, htype⟩ := hk
  rcases lookup_plugged he with ⟨-, rfl⟩ | ⟨rfl, -⟩
  · exact absurd htype (by decide)
  · rfl

theorem isChassis_plugged {k : Value} (hk : isChassis plugged k = true) : k = .str "1" := by
  obtain ⟨e, he⟩ := Dict.mem_iff_lookup.mp (mem_of_isChassis hk)
  rcases lookup_plugged he with ⟨rfl, -⟩ | ⟨rfl, -⟩
  · rfl
  · exact absurd hk (by decide)

theorem fresh_plugged : FreshPorts .stored giPorts plugged pluggedTree where
  index := fun k p hp => by
    obtain rfl := isTransceiver_plugged (isTransceiver_of_newIndex hp)
    have hport : newIndex .stored giPorts plugged pluggedTree (.str "2") = some (.str "Gi1/1") := by
      decide
    obtain rfl := Option.some.inj (hport.symm.trans hp)
    exact ⟨by decide, by decide⟩
  parent := fun T k e v hT hunder _ _ => by
    -- the transceiver is a leaf of the tree
    obtain rfl := isTransceiver_plugged hT
    simp [Under, pluggedTree, Forest.links] at hunder

theorem undisturbed_plugged : Undisturbed .stored giPorts plugged pluggedTree where
  fresh := fresh_plugged
  zero := ⟨fun hT => absurd (isTransceiver_plugged hT) (by decide), by decide⟩
  inTree := fun k hk => isTransceiver_plugged hk ▸ by decide
  whole := fun T hnew _ hadrift => by
    obtain ⟨p, hp⟩ := Option.ne_none_iff_exists'.mp hnew
    obtain rfl := isTransceiver_plugged (isTransceiver_of_newIndex hp)
    rcases hadrift with hkeys | ⟨T, hT, hunder⟩
    · exact absurd hkeys (by decide)
    · exact absurd (isTransceiver_plugged hT) (Under.ne (by decide) hunder)
  chassis :=
    { only := fun c hc _ => isChassis_plugged hc ▸ by decide
      model := fun c c' _ hc hc' hne =>
        absurd ((isChassis_plugged hc).trans (isChassis_plugged hc').symm) hne }

end Entities
