/-
# What `regraft` and `reattach_as` do to the tree and to the table

Both move branches of the tree and rewrite the parents of the entries that are
concerned.  Each has one law: what every entry of the table has become, and
which links of the tree are new, are gone and have stayed.

A stale node, one that is in the tree and no longer in the table, is where the
two part: `regraft` leaves such a child where it is, `reattach_as` raises.
-/
import Ptolemy.Entities

namespace Entities

/-! ## The children of a node -/

section Children

variable {t : Tree} (hnodup : t.nodes.Nodup)
include hnodup

/-- The children of a node, as the loops list them. -/
theorem mem_children {n c : Value} (o : KeyOrder) : c ∈ childrenIds o n t ↔ Under t n c := by
  rw [under_iff hnodup, childrenIds, walkTo]
  cases h : t.find n with
  | none => simp
  | some s => simp [o.mem_order]

theorem nodup_children (n : Value) (o : KeyOrder) : (childrenIds o n t).Nodup := by
  rw [childrenIds, walkTo]
  cases h : t.find n with
  | none => exact List.nodup_nil
  | some s =>
    exact (o.perm s.keys).nodup_iff.mpr (Forest.nodup_keys (Forest.nodup_of_find hnodup h))

end Children

/-! ## One child -/

/-- What moving one child of `n` to `q` does: its branch is moved, or lost where `q` is not
outside of it. -/
theorem regraftChild_links (inherit : Entity → Entity → Entity) {n c : Value} {removed child : Entity}
    {parented : Bool} {t : Tree} {items : Items} (hnodup : t.nodes.Nodup)
    (hparented : removed.parentIndex ∈ t.nodes → parented = true) (hc : Under t n c)
    (hchild : items.lookup c = some child) :
    ∃ (sub : Tree) (rest : List (Option Value × Value)),
      (t.links none).Perm (((some n, c) :: sub.links (some c)) ++ rest) ∧
      t.find c = some sub ∧
      ((removed.parentIndex ∈ t.nodes ∧ removed.parentIndex ≠ n ∧
          removed.parentIndex ∉ c :: sub.nodes ∧
          ((regraftChild inherit n removed parented (t, items) c).1.links none).Perm
            (((some removed.parentIndex, c) :: sub.links (some c)) ++ rest)) ∨
        ((removed.parentIndex ∉ t.nodes ∨ removed.parentIndex = n ∨
            removed.parentIndex ∈ c :: sub.nodes) ∧
          ((regraftChild inherit n removed parented (t, items) c).1.links none).Perm rest)) := by
  obtain ⟨s, hs, hkeys⟩ := (under_iff hnodup).mp hc
  obtain ⟨sub, hsub⟩ := Forest.mem_keys_iff.mp hkeys
  have hfind : t.find c = some sub := by
    rw [Forest.find_trans hnodup hs (Forest.mem_nodes_of_mem_keys hkeys)]
    exact Forest.find_of_get (Forest.nodup_of_find hnodup hs) hsub
  refine ⟨sub, _, Forest.links_modify_del hs hsub none, hfind, ?_⟩
  have hread : (((walkTo n t).getD .empty).get c).getD .empty = sub := by
    rw [walkTo, hs, Option.getD_some, hsub, Option.getD_some]
  have hstep : (regraftChild inherit n removed parented (t, items) c).1
      = (if parented then t.modify removed.parentIndex (fun u => u.set c sub) else t).modify n
          (fun u => u.del c) := by
    simp only [regraftChild, hchild, hread]
  rw [hstep]
  by_cases hq : removed.parentIndex ∈ t.nodes
  · rw [if_pos (hparented hq)]
    by_cases hlost : removed.parentIndex = n ∨ removed.parentIndex ∈ c :: sub.nodes
    · exact Or.inr ⟨Or.inr hlost, Forest.links_move_lost hnodup hs hsub hlost⟩
    · obtain ⟨hne, hout⟩ := not_or.mp hlost
      exact Or.inl ⟨hq, hne, hout, Forest.links_move hnodup hs hsub hq hne hout⟩
  · refine Or.inr ⟨Or.inl hq, ?_⟩
    rw [Forest.modify_of_notMem hq, ite_self]

/-- The table after one child. -/
theorem regraftChild_items (inherit : Entity → Entity → Entity) (n c : Value) (removed : Entity)
    (parented : Bool) (s : Tree × Items) (k : Value) :
    (regraftChild inherit n removed parented s c).2.lookup k
      = if k = c then (s.2.lookup k).map
          (fun d => inherit removed { d with parentIndex := removed.parentIndex })
        else s.2.lookup k := by
  unfold regraftChild
  by_cases hk : k = c
  · subst hk
    rw [if_pos rfl]
    cases h : s.2.lookup k with
    | none => exact h
    | some child => rw [AList.lookup_insert, Option.map_some]
  · rw [if_neg hk]
    cases s.2.lookup c with
    | none => rfl
    | some child => exact AList.lookup_insert_ne hk

/-! ## All the children -/

/-- The tree after the children of `n` that are `moved` have gone to `q`: the links that it has,
and those it has kept where `n` is directly under `q`. -/
structure Regraft (n q : Value) (moved : Value → Prop) (t t' : Tree) : Prop where
  nodup : t'.nodes.Nodup
  nodes : t'.nodes ⊆ t.nodes
  source : ∀ p k, (p, k) ∈ t'.links none →
    ((p, k) ∈ t.links none ∧ ¬ (p = some n ∧ moved k)) ∨
    (p = some q ∧ Under t n k ∧ moved k ∧ q ∈ t.nodes)
  siblings : ∀ k, Under t n k → ¬ moved k → Under t' n k
  stay : ∀ m, (none, m) ∈ t.links none → (none, m) ∈ t'.links none ∧
    (m ≠ n → ∀ k, Under t m k → Under t' m k)
  keep : Under t q n → ∀ p k, (p, k) ∈ t.links none → p ≠ some n → (p, k) ∈ t'.links none
  gain : Under t q n → ∀ k, Under t n k → moved k → Under t' q k

theorem Regraft.refl {n q : Value} {t : Tree} (hnodup : t.nodes.Nodup) :
    Regraft n q (fun _ => False) t t where
  nodup := hnodup
  nodes := fun _ h => h
  source := fun _ _ h => Or.inl ⟨h, fun hc => hc.2⟩
  siblings := fun _ h _ => h
  stay := fun _ h => ⟨h, fun _ _ h => h⟩
  keep := fun _ _ _ h _ => h
  gain := fun _ _ _ h => h.elim

theorem Regraft.trans {n q c : Value} {moved : Value → Prop} {t t₁ t₂ : Tree}
    (hnodup : t.nodes.Nodup) (hc : Under t n c) (h : Regraft n q (fun k => k = c) t t₁)
    (h' : Regraft n q moved t₁ t₂) : Regraft n q (fun k => k = c ∨ moved k) t t₂ where
  nodup := h'.nodup
  nodes := fun _ hk => h.nodes (h'.nodes hk)
  source := fun p k hk => by
    rcases h'.source p k hk with ⟨hk, hnot⟩ | ⟨rfl, hunder, hmoved, hq⟩
    · rcases h.source p k hk with ⟨hk, hnot'⟩ | ⟨rfl, hunder, rfl, hq⟩
      · exact Or.inl ⟨hk, fun hc => hc.2.elim (fun h => hnot' ⟨hc.1, h⟩)
          (fun h => hnot ⟨hc.1, h⟩)⟩
      · exact Or.inr ⟨rfl, hunder, Or.inl rfl, hq⟩
    · rcases h.source _ k hunder with ⟨hk, -⟩ | ⟨-, hunder, -, -⟩
      · exact Or.inr ⟨rfl, hk, Or.inr hmoved, h.nodes hq⟩
      · exact Or.inr ⟨rfl, hunder, Or.inr hmoved, h.nodes hq⟩
  siblings := fun k hk hnot =>
    h'.siblings k (h.siblings k hk (fun hc => hnot (Or.inl hc))) (fun hc => hnot (Or.inr hc))
  stay := fun m hm => by
    obtain ⟨htop, hunder⟩ := h.stay m hm
    obtain ⟨htop', hunder'⟩ := h'.stay m htop
    exact ⟨htop', fun hne k hk => hunder' hne k (hunder hne k hk)⟩
  keep := fun hq p k hk hp =>
    h'.keep (h.keep hq _ _ hq (fun hc => hq.ne hnodup (Option.some.inj hc))) p k
      (h.keep hq p k hk hp) hp
  gain := fun hq k hk hmoved => by
    have hqn : q ≠ n := hq.ne hnodup
    have hq₁ := h.keep hq _ _ hq (fun hc => hqn (Option.some.inj hc))
    by_cases hkc : k = c
    · subst hkc
      exact h'.keep hq₁ _ _ (h.gain hq k hc rfl) (fun hc => hqn (Option.some.inj hc))
    · exact h'.gain hq₁ k (h.siblings k hk hkc) (hmoved.resolve_left hkc)

theorem regraftChild_regraft (inherit : Entity → Entity → Entity) {n c : Value}
    {removed child : Entity} {parented : Bool} {t : Tree} {items : Items}
    (hnodup : t.nodes.Nodup) (hparented : removed.parentIndex ∈ t.nodes → parented = true)
    (hc : Under t n c) (hchild : items.lookup c = some child) :
    Regraft n removed.parentIndex (fun k => k = c) t
      (regraftChild inherit n removed parented (t, items) c).1 := by
  obtain ⟨sub, rest, hold, hfind, hnew⟩ :=
    regraftChild_links inherit hnodup hparented hc hchild
  generalize (regraftChild inherit n removed parented (t, items) c).1 = t' at hnew
  generalize removed.parentIndex = q at hnew hparented ⊢
  have hcsub : c ∉ sub.nodes := Forest.notMem_of_find hnodup hfind
  have hnsub : n ∉ sub.nodes := fun hn =>
    hcsub (Forest.mem_nodes_of_below hnodup hfind (List.mem_cons_of_mem c hn) hc)
  have hlinks : (t.links none).Nodup := by
    rw [← Forest.map_snd_links t none] at hnodup
    exact hnodup.of_map
  have hrest : (some n, c) ∉ rest := fun hmem =>
    (List.nodup_cons.mp (hold.nodup_iff.mp hlinks)).1 (List.mem_append_right _ hmem)
  have hsub : ∀ p k, (p, k) ∈ sub.links (some c) → p ≠ some n ∧ k ≠ c := by
    intro p k hk
    refine ⟨?_, fun hkc => hcsub (hkc ▸ Forest.mem_nodes_of_mem_links hk)⟩
    rintro rfl
    rcases Forest.mem_links_cases hk with ⟨heq, -⟩ | ⟨m, hm, heq⟩
    · exact hc.ne hnodup (Option.some.inj heq)
    · exact hnsub (Option.some.inj heq ▸ hm)
  have hkept : ∀ p k, (p, k) ∈ sub.links (some c) ∨ (p, k) ∈ rest →
      (p, k) ∈ t.links none ∧ ¬ (p = some n ∧ k = c) := by
    rintro p k (hk | hk)
    · exact ⟨hold.mem_iff.mpr (List.mem_append_left _ (List.mem_cons_of_mem _ hk)),
        fun hnc => (hsub p k hk).1 hnc.1⟩
    · refine ⟨hold.mem_iff.mpr (List.mem_append_right _ hk), ?_⟩
      rintro ⟨rfl, rfl⟩
      exact hrest hk
  have hout : Under t q n → ¬ (q ∉ t.nodes ∨ q = n ∨ q ∈ c :: sub.nodes) := by
    rintro hq (h | h | h)
    · exact h hq.mem_parent
    · exact hq.ne hnodup h
    · exact hnsub (Forest.mem_nodes_of_below hnodup hfind h hq)
  have hcases : ∀ p k, (p, k) ∈ t.links none → (p, k) ≠ (some n, c) →
      (p, k) ∈ sub.links (some c) ∨ (p, k) ∈ rest := by
    intro p k hk hne
    rcases List.mem_append.mp (hold.mem_iff.mp hk) with hk | hk
    · exact Or.inl ((List.mem_cons.mp hk).resolve_left hne)
    · exact Or.inr hk
  have hinrest : ∀ k, Under t n k → k ≠ c → (some n, k) ∈ rest := by
    intro k hk hne
    rcases hcases _ k hk (fun heq => hne (congrArg Prod.snd heq)) with h | h
    · exact absurd rfl (hsub _ k h).1
    · exact h
  -- what is at the top is not in the branch that is moved
  have hstay : (∀ x ∈ rest, x ∈ t'.links none) → ∀ m, (none, m) ∈ t.links none →
      (none, m) ∈ t'.links none ∧ (m ≠ n → ∀ k, Under t m k → Under t' m k) := by
    intro hin m hm
    have hmsub : ∀ p, (some p, m) ∉ t.links none := fun p hp => by
      cases Forest.links_unique hnodup hm hp
    refine ⟨hin _ ((hcases none m hm (fun heq => by cases heq)).resolve_left
      (Forest.none_notMem_links sub c m)), fun hne k hk => hin _ ?_⟩
    refine (hcases _ k hk (fun heq => hne (Option.some.inj (congrArg Prod.fst heq)))).resolve_left ?_
    intro hin'
    rcases Forest.mem_links_cases hin' with ⟨heq, -⟩ | ⟨a, ha, heq⟩
    · exact hmsub n (Option.some.inj heq ▸ hc)
    · obtain rfl := Option.some.inj heq
      obtain ⟨p, hp⟩ := Forest.exists_mem_links ha (some c)
      have hp' := (hkept p m (Or.inl hp)).1
      cases p with
      | none => exact Forest.none_notMem_links sub c m hp
      | some p => exact hmsub p hp'
  rcases hnew with ⟨hq, hqn, hqsub, hnew⟩ | ⟨hlost, hnew⟩
  · have hnodes : t'.nodes.Perm t.nodes := by
      have h1 := hnew.map Prod.snd
      have h2 := hold.map Prod.snd
      rw [Forest.map_snd_links] at h1 h2
      simp only [List.map_append, List.map_cons] at h1 h2
      exact h1.trans h2.symm
    refine ⟨hnodes.nodup_iff.mpr hnodup, hnodes.subset, fun p k hk => ?_, fun k hk hne => ?_,
      hstay fun x hx => hnew.mem_iff.mpr (List.mem_append_right _ hx),
      fun _ p k hk hp => ?_, fun _ k hk hkc => ?_⟩
    · rcases List.mem_append.mp (hnew.mem_iff.mp hk) with hk | hk
      · rcases List.mem_cons.mp hk with heq | hk
        · cases heq
          exact Or.inr ⟨rfl, hc, rfl, hq⟩
        · exact Or.inl (hkept p k (Or.inl hk))
      · exact Or.inl (hkept p k (Or.inr hk))
    · exact hnew.mem_iff.mpr (List.mem_append_right _ (hinrest k hk hne))
    · refine hnew.mem_iff.mpr ?_
      rcases hcases p k hk (fun heq => hp (congrArg Prod.fst heq)) with h | h
      · exact List.mem_append_left _ (List.mem_cons_of_mem _ h)
      · exact List.mem_append_right _ h
    · subst hkc
      exact hnew.mem_iff.mpr (List.mem_append_left _ List.mem_cons_self)
  · have hnodes : t.nodes.Perm ((c :: sub.nodes) ++ t'.nodes) := by
      have h1 := hnew.map Prod.snd
      have h2 := hold.map Prod.snd
      rw [Forest.map_snd_links] at h1 h2
      simp only [List.map_append, List.map_cons, Forest.map_snd_links] at h2
      exact h2.trans (h1.symm.append_left _)
    refine ⟨(List.nodup_append.mp (hnodes.nodup_iff.mp hnodup)).2.1,
      fun k hk => hnodes.mem_iff.mpr (List.mem_append_right _ hk), fun p k hk => ?_,
      fun k hk hne => hnew.mem_iff.mpr (hinrest k hk hne),
      hstay fun x hx => hnew.mem_iff.mpr hx, fun hq => absurd hlost (hout hq),
      fun hq => absurd hlost (hout hq)⟩
    exact Or.inl (hkept p k (Or.inr (hnew.mem_iff.mp hk)))

/-- The entry of a child that has been moved. -/
def rehomed (inherit : Entity → Entity → Entity) (removed : Entity) (d : Entity) : Entity :=
  inherit removed { d with parentIndex := removed.parentIndex }

theorem foldl_regraftChild (inherit : Entity → Entity → Entity) {n : Value} {removed : Entity}
    {parented : Bool} {cs : List Value} {t : Tree} (items : Items) (hnodup : t.nodes.Nodup)
    (hparented : removed.parentIndex ∈ t.nodes → parented = true) (hcs : cs.Nodup)
    (hunder : ∀ c ∈ cs, Under t n c) :
    Regraft n removed.parentIndex (fun k => k ∈ cs ∧ k ∈ items) t
        (cs.foldl (regraftChild inherit n removed parented) (t, items)).1 ∧
      ∀ k, (cs.foldl (regraftChild inherit n removed parented) (t, items)).2.lookup k
        = if k ∈ cs then (items.lookup k).map (rehomed inherit removed) else items.lookup k := by
  induction cs generalizing t items with
  | nil =>
    refine ⟨?_, fun k => by rw [if_neg List.not_mem_nil]; rfl⟩
    have hfalse : (fun k => k ∈ ([] : List Value) ∧ k ∈ items) = fun _ => False := by
      funext k
      simp
    rw [hfalse]
    exact Regraft.refl hnodup
  | cons c cs ih =>
    obtain ⟨hcs', hcs⟩ := List.nodup_cons.mp hcs
    have hc := hunder c List.mem_cons_self
    rw [List.foldl_cons]
    have hitems := regraftChild_items inherit n c removed parented (t, items)
    have hmem : ∀ k, k ∈ (regraftChild inherit n removed parented (t, items) c).2 ↔ k ∈ items := by
      intro k
      rw [Dict.mem_iff_lookup, Dict.mem_iff_lookup, hitems]
      split_ifs with hk
      · simp
      · exact Iff.rfl
    generalize hs : regraftChild inherit n removed parented (t, items) c = s at hitems hmem ⊢
    obtain ⟨t₁, items₁⟩ := s
    have hmoved : ∀ {cs : List Value}, (fun k => k ∈ cs ∧ k ∈ items₁)
        = fun k => k ∈ cs ∧ k ∈ items := by
      intro cs
      funext k
      rw [hmem k]
    have hlookup : ∀ h : ∀ k, (cs.foldl (regraftChild inherit n removed parented)
        (t₁, items₁)).2.lookup k
          = if k ∈ cs then (items₁.lookup k).map (rehomed inherit removed) else items₁.lookup k,
        ∀ k, (cs.foldl (regraftChild inherit n removed parented) (t₁, items₁)).2.lookup k
          = if k ∈ c :: cs then (items.lookup k).map (rehomed inherit removed)
            else items.lookup k := by
      intro h k
      rw [h k, hitems k]
      by_cases hkc : k = c
      · rw [if_pos (List.mem_cons.mpr (Or.inl hkc)), if_pos hkc,
          if_neg (fun hk => hcs' (hkc ▸ hk))]
        rfl
      · by_cases hk : k ∈ cs
        · rw [if_pos hk, if_neg hkc, if_pos (List.mem_cons_of_mem c hk)]
        · rw [if_neg hk, if_neg hkc,
            if_neg (fun h => (List.mem_cons.mp h).elim hkc hk)]
    cases hchild : items.lookup c with
    | none =>
      -- a child that is not in the table stays where it is
      have hsame : t₁ = t := by
        have := congrArg Prod.fst hs
        simpa [regraftChild, hchild] using this.symm
      subst hsame
      obtain ⟨hregraft, h⟩ := ih items₁ hnodup hparented hcs
        (fun k hk => hunder k (List.mem_cons_of_mem c hk))
      refine ⟨?_, hlookup h⟩
      have heq : (fun k => k ∈ c :: cs ∧ k ∈ items) = fun k => k ∈ cs ∧ k ∈ items₁ := by
        rw [hmoved]
        funext k
        have hout : c ∉ items := AList.lookup_eq_none.mp hchild
        apply propext
        constructor
        · rintro ⟨hk, hmem⟩
          exact ⟨(List.mem_cons.mp hk).resolve_left (fun h => hout (h ▸ hmem)), hmem⟩
        · exact fun ⟨hk, hmem⟩ => ⟨List.mem_cons_of_mem c hk, hmem⟩
      rw [heq]
      exact hregraft
    | some child =>
      have hfirst : Regraft n removed.parentIndex (fun k => k = c) t t₁ := by
        have := regraftChild_regraft inherit hnodup hparented hc hchild
        rwa [hs] at this
      obtain ⟨hregraft, h⟩ := ih items₁ hfirst.nodup (fun hq => hparented (hfirst.nodes hq)) hcs
        (fun k hk => hfirst.siblings k (hunder k (List.mem_cons_of_mem c hk))
          (fun hkc => hcs' (hkc ▸ hk)))
      refine ⟨?_, hlookup h⟩
      have hmem' : c ∈ items := Dict.mem_iff_lookup.mpr ⟨child, hchild⟩
      have heq : (fun k => k ∈ c :: cs ∧ k ∈ items)
          = fun k => k = c ∨ (k ∈ cs ∧ k ∈ items₁) := by
        funext k
        rw [hmem k]
        apply propext
        constructor
        · exact fun ⟨hk, hmem⟩ => (List.mem_cons.mp hk).imp_right (fun hk => ⟨hk, hmem⟩)
        · rintro (rfl | ⟨hk, hmem⟩)
          · exact ⟨List.mem_cons_self, hmem'⟩
          · exact ⟨List.mem_cons_of_mem c hk, hmem⟩
      rw [heq]
      exact hfirst.trans hnodup hc hregraft

/-! ## `regraft` -/

/-- The tree `t'` after `n` has been removed and its children in the table have gone to `q`. -/
structure Regrafted (n q : Value) (items : Items) (t t' : Tree) : Prop where
  nodup : t'.nodes.Nodup
  nodes : t'.nodes ⊆ t.nodes
  source : ∀ p k, (p, k) ∈ t'.links none →
    ((p, k) ∈ t.links none ∧ ¬ (p = some n ∧ k ∈ items) ∧ ¬ (p = some q ∧ k = n)) ∨
    (p = some q ∧ Under t n k ∧ k ∈ items ∧ q ∈ t.nodes)
  stay : ∀ m, (none, m) ∈ t.links none → (none, m) ∈ t'.links none ∧
    (m ≠ n → ∀ k, Under t m k → ¬ (m = q ∧ k = n) → Under t' m k)
  keep : Under t q n → (∀ k, Under t n k → k ∈ items) →
    ∀ p k, (p, k) ∈ t.links none → p ≠ some n → k ≠ n → (p, k) ∈ t'.links none
  gain : Under t q n → (∀ k, Under t n k → k ∈ items) → ∀ k, Under t n k → Under t' q k

/-- Deleting the node that has been emptied. -/
theorem Regraft.delete {n q : Value} {items : Items} {t t' : Tree} (hnodup : t.nodes.Nodup)
    (h : Regraft n q (fun k => Under t n k ∧ k ∈ items) t t') :
    Regrafted n q items t (t'.modify q (fun u => u.del n)) := by
  have hsource : ∀ p k, (p, k) ∈ t'.links none → (p ≠ some q ∨ k ≠ n) →
      ((p, k) ∈ t.links none ∧ ¬ (p = some n ∧ k ∈ items) ∧ ¬ (p = some q ∧ k = n)) ∨
      (p = some q ∧ Under t n k ∧ k ∈ items ∧ q ∈ t.nodes) := by
    intro p k hk hne
    rcases h.source p k hk with ⟨hk, hnot⟩ | ⟨hp, hunder, hmoved, hq⟩
    · refine Or.inl ⟨hk, ?_, fun hc => hne.elim (fun h => h hc.1) (fun h => h hc.2)⟩
      rintro ⟨rfl, hmem⟩
      exact hnot ⟨rfl, hk, hmem⟩
    · exact Or.inr ⟨hp, hunder, hmoved.2, hq⟩
  by_cases hqt : Under t' q n
  · obtain ⟨u, hu, hkeys⟩ := (under_iff h.nodup).mp hqt
    obtain ⟨v, hv⟩ := Forest.mem_keys_iff.mp hkeys
    have hdel := Forest.links_modify_del hu hv none
    have hnodes := Forest.nodes_perm_of_links hdel
    rw [List.map_cons, Forest.map_snd_links] at hnodes
    have hdisjoint := (List.nodup_append'.mp (hnodes.nodup_iff.mp h.nodup)).2.2
    have hn : n ∉ (t'.modify q (fun u => u.del n)).nodes := fun hc =>
      hdisjoint List.mem_cons_self hc
    have hrest : ∀ p k, (∀ k, Under t n k → k ∈ items) → Under t q n → k ≠ n →
        (p, k) ∈ t'.links none → (p, k) ∈ (t'.modify q (fun u => u.del n)).links none := by
      intro p k hall hqn hne hk
      -- nothing is left under the node
      have hvkeys : v.keys = [] := by
        rw [List.eq_nil_iff_forall_not_mem]
        intro x hx
        have hfind : t'.find n = some v := by
          rw [Forest.find_trans h.nodup hu (Forest.mem_nodes_of_mem_keys hkeys)]
          exact Forest.find_of_get (Forest.nodup_of_find h.nodup hu) hv
        have hunder : Under t' n x := (under_iff h.nodup).mpr ⟨v, hfind, hx⟩
        rcases h.source _ x hunder with ⟨hx, hnot⟩ | ⟨heq, -⟩
        · exact hnot ⟨rfl, hx, hall x hx⟩
        · exact hqn.ne hnodup (Option.some.inj heq).symm
      have hempty : v.links (some n) = [] := by
        cases v with
        | empty => rfl
        | entry k' sub rest => cases hvkeys
      rw [hempty] at hdel
      rcases List.mem_cons.mp (hdel.mem_iff.mp hk) with heq | hk
      · exact absurd (congrArg Prod.snd heq) hne
      · exact hk
    refine ⟨(List.nodup_append.mp (hnodes.nodup_iff.mp h.nodup)).2.1,
      fun k hk => h.nodes (hnodes.mem_iff.mpr (List.mem_append_right _ hk)), fun p k hk => ?_,
      fun m hm => ?_, fun hqn hall p k hk hp hne => hrest p k hall hqn hne (h.keep hqn p k hk hp),
      fun hqn hall k hk => ?_⟩
    · have hnode := Forest.mem_nodes_of_mem_links hk
      exact hsource p k (hdel.mem_iff.mpr (List.mem_append_right _ hk))
        (Or.inr (fun hkn => hn (hkn ▸ hnode)))
    · -- what is at the top is not under the node
      obtain ⟨htop, hunder⟩ := h.stay m hm
      have hsplit : ∀ p k, (p, k) ∈ t'.links none → (p, k) ≠ (some q, n) →
          (p, k) ∈ v.links (some n) ∨ (p, k) ∈ (t'.modify q (fun u => u.del n)).links none := by
        intro p k hk hne
        rcases List.mem_append.mp (hdel.mem_iff.mp hk) with hk | hk
        · exact Or.inl ((List.mem_cons.mp hk).resolve_left hne)
        · exact Or.inr hk
      refine ⟨(hsplit none m htop (fun heq => by cases heq)).resolve_left
        (Forest.none_notMem_links v n m), fun hne k hk hself => ?_⟩
      refine (hsplit _ k (hunder hne k hk) (fun heq => ?_)).resolve_left (fun hin => ?_)
      · exact hself ⟨Option.some.inj (congrArg Prod.fst heq), congrArg Prod.snd heq⟩
      · rcases Forest.mem_links_cases hin with ⟨heq, -⟩ | ⟨a, ha, heq⟩
        · exact hne (Option.some.inj heq)
        · obtain rfl := Option.some.inj heq
          obtain ⟨p, hp⟩ := Forest.exists_mem_links ha (some n)
          have hmem := hdel.mem_iff.mpr (List.mem_append_left _ (List.mem_cons_of_mem _ hp))
          obtain rfl := Forest.links_unique h.nodup htop hmem
          exact Forest.none_notMem_links v n m hp
    · exact hrest _ k hall hqn (fun hkn => (hk.ne hnodup) hkn.symm)
        (h.gain hqn k hk ⟨hk, hall k hk⟩)
  · have hlinks : ((t'.modify q (fun u => u.del n)).links none).Perm (t'.links none) := by
      by_cases hmem : q ∈ t'.nodes
      · obtain ⟨u, hu⟩ := Forest.mem_nodes_iff.mp hmem
        exact Forest.links_modify_id hu
          (Forest.del_of_notMem (fun hc => hqt ((under_iff h.nodup).mpr ⟨u, hu, hc⟩))) none
      · rw [Forest.modify_of_notMem hmem]
    have hnodes : (t'.modify q (fun u => u.del n)).nodes.Perm t'.nodes :=
      Forest.nodes_perm_of_links (l := []) hlinks
    refine ⟨hnodes.nodup_iff.mpr h.nodup, fun k hk => h.nodes (hnodes.mem_iff.mp hk),
      fun p k hk => ?_, fun m hm => ?_, fun hqn => ?_, fun hqn => ?_⟩
    · have hk' := hlinks.mem_iff.mp hk
      refine hsource p k hk' ?_
      by_cases hp : p = some q
      · subst hp
        exact Or.inr (fun hkn => hqt (hkn ▸ hk'))
      · exact Or.inl hp
    · obtain ⟨htop, hunder⟩ := h.stay m hm
      exact ⟨hlinks.mem_iff.mpr htop, fun hne k hk _ => hlinks.mem_iff.mpr (hunder hne k hk)⟩
    · exact absurd (h.keep hqn _ _ hqn (fun hc => hqn.ne hnodup (Option.some.inj hc))) hqt
    · exact absurd (h.keep hqn _ _ hqn (fun hc => hqn.ne hnodup (Option.some.inj hc))) hqt

/-- **`regraft`** does not raise; the children of the node that are in the table get its parent
there, and go to its parent in the tree. -/
theorem regraft_spec (o : KeyOrder) (inherit : Entity → Entity → Entity) {n : Value}
    {removed : Entity} {t : Tree} {items : Items} (hnodup : t.nodes.Nodup)
    (hn : items.lookup n = some removed) :
    ∃ t' items', regraft o inherit n t items = .ok (t', items') ∧
      Regrafted n removed.parentIndex items t t' ∧
      ∀ k, items'.lookup k = if Under t n k then (items.lookup k).map (rehomed inherit removed)
        else items.lookup k := by
  have hcs := nodup_children hnodup n o
  have hmem : ∀ c, c ∈ childrenIds o n t ↔ Under t n c := fun c => mem_children hnodup o
  unfold regraft
  rw [itemAt_eq_ok.mpr hn, Except.ok_bind]
  generalize childrenIds o n t = cs at hcs hmem ⊢
  have hparented : removed.parentIndex ∈ t.nodes →
      (walkTo removed.parentIndex t).isSome = true := by
    intro hq
    obtain ⟨s, hs⟩ := Forest.mem_nodes_iff.mp hq
    rw [walkTo, hs, Option.isSome_some]
  obtain ⟨hregraft, hitems⟩ := foldl_regraftChild inherit items hnodup
    hparented hcs (fun c hc => (hmem c).mp hc)
  have hmoved : (fun k => k ∈ cs ∧ k ∈ items) = fun k => Under t n k ∧ k ∈ items := by
    funext k
    rw [hmem k]
  rw [hmoved] at hregraft
  have hitems' : ∀ k, (cs.foldl (regraftChild inherit n removed
      (walkTo removed.parentIndex t).isSome) (t, items)).2.lookup k
        = if Under t n k then (items.lookup k).map (rehomed inherit removed)
          else items.lookup k := by
    intro k
    rw [hitems k]
    simp only [hmem k]
  by_cases hq : removed.parentIndex ∈ t.nodes
  · rw [if_pos (hparented hq)]
    exact ⟨_, _, rfl, hregraft.delete hnodup, hitems'⟩
  · have hnone : (walkTo removed.parentIndex t).isSome = false := by
      rw [walkTo, Forest.find_eq_none.mpr hq, Option.isSome_none]
    rw [if_neg (by rw [hnone]; decide)]
    refine ⟨_, _, rfl, ⟨hregraft.nodup, hregraft.nodes, fun p k hk => ?_,
      fun m hm => (hregraft.stay m hm).imp_right (fun hunder hne k hk _ => hunder hne k hk),
      fun hqn => absurd hqn.mem_parent hq, fun hqn => absurd hqn.mem_parent hq⟩, hitems'⟩
    rcases hregraft.source p k hk with ⟨hold, hnot⟩ | ⟨-, -, -, hq'⟩
    · refine Or.inl ⟨hold, ?_, ?_⟩
      · rintro ⟨rfl, hmem⟩
        exact hnot ⟨rfl, hold, hmem⟩
      · rintro ⟨rfl, rfl⟩
        exact hq (Under.mem_parent hold)
    · exact absurd hq' hq

/-! ## `reattach_as` -/

/-- The tree `t'` after `n`, directly under `q`, has got the name `m`. -/
structure Renamed (n m q : Value) (t t' : Tree) : Prop where
  nodup : t'.nodes.Nodup
  links : ∀ p k, (p, k) ∈ t'.links none ↔
    ((p, k) ∈ t.links none ∧ p ≠ some n ∧ k ≠ n) ∨ (p = some q ∧ k = m) ∨
    (p = some m ∧ Under t n k)

/-- The tree `t'` after `m` has been added under `q`, where there is such a node. -/
structure Added (m q : Value) (t t' : Tree) : Prop where
  nodup : t'.nodes.Nodup
  links : ∀ p k, (p, k) ∈ t'.links none ↔
    (p, k) ∈ t.links none ∨ (p = some q ∧ k = m ∧ q ∈ t.nodes)

theorem Renamed.notMem {n m q : Value} {t t' : Tree} (h : Renamed n m q t t')
    (hnodup : t.nodes.Nodup) (hne : n ≠ m) : n ∉ t'.nodes := by
  intro hn
  obtain ⟨p, hp⟩ := Forest.exists_mem_links hn none
  rcases (h.links p n).mp hp with ⟨-, -, hc⟩ | ⟨-, hc⟩ | ⟨-, hc⟩
  · exact hc rfl
  · exact hne hc
  · exact hc.ne hnodup rfl

theorem renamed_of_under {n m q : Value} {t : Tree} (hnodup : t.nodes.Nodup) (hq : Under t q n)
    (hm : m ∉ t.nodes) :
    Renamed n m q t
      (t.modify q (fun u => (u.set m ((u.get n).getD .empty)).del n)) := by
  have hne : n ≠ m := fun h => hm (h ▸ hq.mem)
  obtain ⟨u, hu, hkeys⟩ := (under_iff hnodup).mp hq
  obtain ⟨sub, hsub⟩ := Forest.mem_keys_iff.mp hkeys
  have hfind : t.find n = some sub := by
    rw [Forest.find_trans hnodup hu (Forest.mem_nodes_of_mem_keys hkeys)]
    exact Forest.find_of_get (Forest.nodup_of_find hnodup hu) hsub
  have hold := Forest.links_modify_del hu hsub none
  have hnew := Forest.links_rename hu hsub hm hne
  generalize (t.modify q (fun s => s.del n)).links none = rest at hold hnew
  generalize t.modify q (fun u => (u.set m ((u.get n).getD .empty)).del n) = t' at hnew ⊢
  have hnold := hold.map Prod.snd
  have hnnew := hnew.map Prod.snd
  rw [Forest.map_snd_links] at hnold hnnew
  simp only [List.map_append, List.map_cons, Forest.map_snd_links] at hnold hnnew
  have hnodup' := hnold.nodup_iff.mp hnodup
  obtain ⟨hnsub, -, hdisjoint⟩ := List.nodup_append'.mp hnodup'
  have hnsub' := (List.nodup_cons.mp hnsub).1
  have hmsub : m ∉ sub.nodes := fun h => hm (Forest.nodes_subset_of_find hfind h)
  have hmrest : m ∉ rest.map Prod.snd := fun h => hm (hnold.mem_iff.mpr (List.mem_append_right _ h))
  have hunder : ∀ {k}, Under t n k ↔ k ∈ sub.keys := by
    intro k
    rw [under_iff hnodup, hfind]
    simp
  have hsnd : ∀ {p : Option Value} {k}, (p, k) ∈ rest → k ∈ rest.map Prod.snd := fun h =>
    List.mem_map_of_mem h
  refine ⟨hnnew.nodup_iff.mpr ?_, fun p k => ⟨fun hk => ?_, fun hk => ?_⟩⟩
  · rw [List.cons_append, List.nodup_cons] at hnodup' ⊢
    exact ⟨fun h => (List.mem_append.mp h).elim hmsub hmrest, hnodup'.2⟩
  · rcases List.mem_append.mp (hnew.mem_iff.mp hk) with hk | hk
    · rcases List.mem_cons.mp hk with heq | hk
      · cases heq
        exact Or.inr (Or.inl ⟨rfl, rfl⟩)
      have hknode := Forest.mem_nodes_of_mem_links hk
      by_cases hp : p = some m
      · subst hp
        rcases Forest.mem_links_cases hk with ⟨-, hk⟩ | ⟨a, ha, heq⟩
        · exact Or.inr (Or.inr ⟨rfl, hunder.mpr hk⟩)
        · exact absurd (Option.some.inj heq ▸ ha) hmsub
      · have hk' := Forest.mem_links_of_ne hk hp (some n)
        refine Or.inl ⟨hold.mem_iff.mpr (List.mem_append_left _ (List.mem_cons_of_mem _ hk')),
          ?_, fun h => hnsub' (h ▸ hknode)⟩
        rintro rfl
        rcases Forest.mem_links_cases hk with ⟨heq, -⟩ | ⟨a, ha, heq⟩
        · exact hne (Option.some.inj heq)
        · exact hnsub' (Option.some.inj heq ▸ ha)
    · refine Or.inl ⟨hold.mem_iff.mpr (List.mem_append_right _ hk), ?_, ?_⟩
      · rintro rfl
        have hk' : Under t n k := hold.mem_iff.mpr (List.mem_append_right _ hk)
        exact hdisjoint (List.mem_cons_of_mem n (Forest.mem_nodes_of_mem_keys (hunder.mp hk')))
          (hsnd hk)
      · rintro rfl
        exact hdisjoint List.mem_cons_self (hsnd hk)
  · rcases hk with ⟨hk, hp, hkn⟩ | ⟨rfl, rfl⟩ | ⟨rfl, hk⟩
    · refine hnew.mem_iff.mpr ?_
      rcases List.mem_append.mp (hold.mem_iff.mp hk) with hk | hk
      · rcases List.mem_cons.mp hk with heq | hk
        · exact absurd (congrArg Prod.snd heq) hkn
        · exact List.mem_append_left _ (List.mem_cons_of_mem _ (Forest.mem_links_of_ne hk hp _))
      · exact List.mem_append_right _ hk
    · exact hnew.mem_iff.mpr (List.mem_append_left _ List.mem_cons_self)
    · exact hnew.mem_iff.mpr (List.mem_append_left _ (List.mem_cons_of_mem _
        (Forest.mem_links_of_mem_keys (hunder.mp hk) _)))

theorem added_of_not_under {n m q : Value} {t : Tree} (hnodup : t.nodes.Nodup)
    (hq : ¬ Under t q n) (hm : m ∉ t.nodes) (hne : n ≠ m) :
    Added m q t (renameUnder q n m t) := by
  unfold renameUnder
  cases hu : t.find q with
  | none =>
    have hmem := Forest.find_eq_none.mp hu
    rw [walkTo, hu]
    exact ⟨hnodup, fun p k => ⟨Or.inl, fun h => h.elim id (fun h => absurd h.2.2 hmem)⟩⟩
  | some u =>
    have hmem : q ∈ t.nodes := Forest.mem_nodes_iff.mpr ⟨u, hu⟩
    have hnew := Forest.links_rename_absent hu
      (fun hc => hq ((under_iff hnodup).mpr ⟨u, hu, hc⟩)) hm hne
    rw [walkTo, hu]
    refine ⟨?_, fun p k => ?_⟩
    · have hnodes := Forest.nodes_perm_of_links (l := [(some q, m)]) hnew
      exact hnodes.nodup_iff.mpr (List.nodup_cons.mpr ⟨hm, hnodup⟩)
    · rw [hnew.mem_iff, List.mem_cons, Prod.mk.injEq, or_comm]
      simp [hmem]

theorem foldlM_reassignChild {m : Value} {cs : List Value} {items : Items}
    (hcs : ∀ c ∈ cs, c ∈ items) :
    ∃ items', cs.foldlM (reassignChild m) items = .ok items' ∧
      ∀ k, items'.lookup k = if k ∈ cs then (items.lookup k).map
        (fun d => { d with parentIndex := m }) else items.lookup k := by
  induction cs generalizing items with
  | nil => exact ⟨items, rfl, fun k => by rw [if_neg List.not_mem_nil]⟩
  | cons c cs ih =>
    obtain ⟨child, hchild⟩ := Dict.mem_iff_lookup.mp (hcs c List.mem_cons_self)
    have hmem : ∀ k ∈ cs, k ∈ AList.insert c { child with parentIndex := m } items := fun k hk =>
      (AList.mem_insert _).mpr (Or.inr (hcs k (List.mem_cons_of_mem c hk)))
    obtain ⟨items', hitems', hlookup⟩ := ih hmem
    refine ⟨items', ?_, fun k => ?_⟩
    · rw [List.foldlM_cons, reassignChild, itemAt_eq_ok.mpr hchild]
      exact hitems'
    · rw [hlookup k, Dict.lookup_insert_eq]
      by_cases hkc : k = c
      · subst hkc
        rw [if_pos rfl, if_pos List.mem_cons_self, hchild]
        split_ifs <;> rfl
      · simp only [List.mem_cons, hkc, false_or, if_false]

/-- Reassigning the children raises where one of them is stale. -/
theorem mem_of_foldlM_reassignChild {m : Value} {cs : List Value} {items items' : Items}
    (h : cs.foldlM (reassignChild m) items = .ok items') : ∀ c ∈ cs, c ∈ items := by
  induction cs generalizing items with
  | nil => exact fun _ hc => absurd hc List.not_mem_nil
  | cons c cs ih =>
    rw [List.foldlM_cons] at h
    obtain ⟨items₁, hfirst, h⟩ := Except.bind_eq_ok.mp h
    rw [reassignChild] at hfirst
    obtain ⟨child, hchild, hfirst⟩ := Except.bind_eq_ok.mp hfirst
    cases hfirst
    have hc : c ∈ items := Dict.mem_iff_lookup.mpr ⟨child, itemAt_eq_ok.mp hchild⟩
    intro k hk
    rcases List.mem_cons.mp hk with rfl | hk
    · exact hc
    · rcases (AList.mem_insert _).mp (ih h k hk) with rfl | hk
      · exact hc
      · exact hk

section Reattach

variable (o : KeyOrder) {n m : Value} {d : Entity} {t : Tree} {items : Items}
  (hnodup : t.nodes.Nodup) (hn : items.lookup n = some d) (hm : m ∉ t.nodes)
  (hq : d.parentIndex ≠ n)
include hnodup hm

/-- The tree that `reattach_as` makes, and the children that it then finds under the old index. -/
theorem reattach_tree (hne : n ≠ m) (hq : d.parentIndex ≠ n) :
    ∃ t', renameUnder d.parentIndex n m t = t' ∧
      (Under t d.parentIndex n → Renamed n m d.parentIndex t t' ∧ childrenIds o n t' = []) ∧
      (¬ Under t d.parentIndex n → Added m d.parentIndex t t' ∧
        ∀ c, c ∈ childrenIds o n t' ↔ Under t n c) := by
  refine ⟨_, rfl, fun hunder => ?_, fun hunder => ?_⟩
  · obtain ⟨s, hs⟩ := Forest.mem_nodes_iff.mp hunder.mem_parent
    rw [renameUnder, walkTo, hs]
    have hrenamed := renamed_of_under hnodup hunder hm
    refine ⟨hrenamed, ?_⟩
    rw [childrenIds, walkTo, Forest.find_eq_none.mpr (hrenamed.notMem hnodup hne)]
  · have hadded := added_of_not_under hnodup hunder hm hne
    refine ⟨hadded, fun c => ?_⟩
    rw [mem_children hadded.nodup, Under, hadded.links]
    constructor
    · exact fun h => h.resolve_right (fun hc => hq (Option.some.inj hc.1).symm)
    · exact Or.inl

include hn hq

/-- **`reattach_as`** does not raise where the node is directly under its parent, and is renamed
there, or where all that is found under it is in the table, and is told the new index. -/
theorem reattachAs_spec (hmi : m ∉ items)
    (hok : Under t d.parentIndex n ∨ ∀ c, Under t n c → c ∈ items) :
    ∃ t' items', reattachAs o n m t items = .ok (t', items') ∧
      (Under t d.parentIndex n → Renamed n m d.parentIndex t t') ∧
      (¬ Under t d.parentIndex n → Added m d.parentIndex t t') ∧
      ∀ k, items'.lookup k = if k = n then none
        else if k = m then some { d with physicalIndex := m }
        else if ¬ Under t d.parentIndex n ∧ Under t n k then
          (items.lookup k).map (fun e => { e with parentIndex := m })
        else items.lookup k := by
  have hne : n ≠ m := fun h => hmi (h ▸ Dict.mem_iff_lookup.mpr ⟨d, hn⟩)
  obtain ⟨t', ht', hrenamed, hadded⟩ := reattach_tree o hnodup hm hne hq
  have hchildren : ∀ c ∈ childrenIds o n t', c ∈ items ∧ c ≠ n := by
    intro c hc
    by_cases hunder : Under t d.parentIndex n
    · rw [(hrenamed hunder).2] at hc
      exact absurd hc List.not_mem_nil
    · have hc' := ((hadded hunder).2 c).mp hc
      exact ⟨hok.resolve_left hunder c hc', (hc'.ne hnodup).symm⟩
  obtain ⟨items₁, hitems₁, hlookup⟩ := foldlM_reassignChild (m := m)
    (fun c hc => (hchildren c hc).1)
  have hn₁ : items₁.lookup n = some d := by
    rw [hlookup n, if_neg (fun hc => (hchildren n hc).2 rfl), hn]
  have hnew : itemAt (AList.erase n (AList.insert m { d with physicalIndex := m } items₁)) m
      = .ok { d with physicalIndex := m } := by
    rw [itemAt_eq_ok, Dict.lookup_erase_eq, if_neg hne.symm, AList.lookup_insert]
  refine ⟨t', AList.erase n (AList.insert m { d with physicalIndex := m } items₁), ?_,
    fun hunder => (hrenamed hunder).1, fun hunder => (hadded hunder).1, fun k => ?_⟩
  · simp only [reattachAs, itemAt_eq_ok.mpr hn, Except.ok_bind]
    rw [ht', hitems₁, Except.ok_bind, itemAt_eq_ok.mpr hn₁, Except.ok_bind, hnew, Except.ok_bind]
    rfl
  · rw [Dict.lookup_erase_eq, Dict.lookup_insert_eq]
    split_ifs with hkn hkm hk
    · rfl
    · rfl
    · rw [hlookup k, if_pos (((hadded hk.1).2 k).mpr hk.2)]
    · rw [hlookup k, if_neg]
      intro hc
      by_cases hunder : Under t d.parentIndex n
      · rw [(hrenamed hunder).2] at hc
        exact absurd hc List.not_mem_nil
      · exact hk ⟨hunder, ((hadded hunder).2 k).mp hc⟩

/-- Where `reattach_as` does not raise, no stale node was found under the old index. -/
theorem of_reattachAs_eq_ok (hne : n ≠ m) {r : Tree × Items}
    (h : reattachAs o n m t items = .ok r) :
    Under t d.parentIndex n ∨ ∀ c, Under t n c → c ∈ items := by
  by_cases hunder : Under t d.parentIndex n
  · exact Or.inl hunder
  obtain ⟨t', ht', -, hadded⟩ := reattach_tree o hnodup hm hne hq
  simp only [reattachAs, itemAt_eq_ok.mpr hn, Except.ok_bind] at h
  rw [ht'] at h
  obtain ⟨items₁, hitems₁, -⟩ := Except.bind_eq_ok.mp h
  exact Or.inr (fun c hc => mem_of_foldlM_reassignChild hitems₁ c
    (((hadded hunder).2 c).mpr hc))

end Reattach

end Entities
