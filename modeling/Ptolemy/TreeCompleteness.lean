/-
# Which entries the tree holds

With numbered entries the order of attaching is the order of the numbers: an
entry joins its parent when it is attached, or is the top of a stray branch
when its number is below that of its parent.  Such an entry is a *descent* on
the way of everything that is under it.  The first loop brings in what reaches
the root without a descent, and each pass over the strays, in whatever order it
meets them, what has one descent more; met in the worst order it brings in
nothing else.  So the two passes of a call with the default arguments are
enough for every order exactly where a way has at most two descents.
-/
import Ptolemy.EntityTree

open Driver (valueEq)

namespace Entities

/-! ## Numbered entries -/

/-- The keys are decimal numbers and the parents are numbers. -/
structure Indexed (items : Items) : Prop where
  key : ∀ k ∈ items, ∃ n : Int, k = .str (toString n)
  parent : ∀ k e, items.lookup k = some e → ∃ p : Int, e.parentIndex = .int p

/-- The number of a key. -/
def num (k : Value) : Int := (keyInt? k).getD 0

@[simp] theorem keyInt?_toString (n : Int) : keyInt? (.str (toString n)) = some n :=
  Text.int?_toString n

@[simp] theorem num_toString (n : Int) : num (.str (toString n)) = n := by
  rw [num, keyInt?_toString, Option.getD_some]

theorem Indexed.keyed {items : Items} (h : Indexed items) : Keyed items := by
  intro k hk
  obtain ⟨n, rfl⟩ := h.key k hk
  refine ⟨_, rfl, fun m hm => ?_⟩
  rw [Text.int?_toString] at hm
  rw [Option.some.inj hm]

/-- The numbers of the keys, in increasing order: what the loops go through. -/
theorem numeriseKeys_eq {items : Items} (h : Indexed items) :
    numeriseKeys items
      = ((items.keys.filterMap keyInt?).insertionSort (· ≤ ·)).map
          (fun i => .str (toString i)) := by
  have htexts : items.keys.filter (fun k => keyInt? k = none) = [] := by
    rw [List.filter_eq_nil_iff]
    intro k hk
    obtain ⟨n, rfl⟩ := h.key k (AList.mem_keys.mp hk)
    rw [keyInt?_toString]
    exact of_decide_eq_false rfl
  rw [numeriseKeys, htexts, List.insertionSort_nil, List.map_nil, List.append_nil]

theorem mem_numeriseKeys {items : Items} (h : Indexed items) {k : Value} :
    k ∈ numeriseKeys items ↔ k ∈ items :=
  mem_numeriseKeys_iff h.keyed

theorem nodup_numeriseKeys {items : Items} (h : Indexed items) : (numeriseKeys items).Nodup :=
  nodup_numeriseKeys_of_keyed h.keyed

theorem pairwise_numeriseKeys {items : Items} (h : Indexed items) :
    (numeriseKeys items).Pairwise (fun a b => num a < num b) := by
  have hnodup := nodup_numeriseKeys h
  have hsorted := List.pairwise_insertionSort (· ≤ ·) (items.keys.filterMap keyInt?)
  rw [numeriseKeys_eq h] at hnodup ⊢
  rw [List.pairwise_map]
  refine (hsorted.and (List.Nodup.of_map _ hnodup)).imp (fun {m n} hmn => ?_)
  rw [num_toString, num_toString]
  exact lt_of_le_of_ne hmn.1 hmn.2

/-- What is attached before an entry is what has a smaller number. -/
theorem before_iff_num {items : Items} (h : Indexed items) {q k : Value} (hk : k ∈ items) :
    Before items q k ↔ q ∈ items ∧ num q < num k := by
  obtain ⟨done, rest, hks⟩ := List.append_of_mem ((mem_numeriseKeys h).mpr hk)
  have hsorted := pairwise_numeriseKeys h
  rw [hks, List.pairwise_append, List.pairwise_cons] at hsorted
  obtain ⟨-, ⟨hafter, -⟩, hdone⟩ := hsorted
  rw [before_iff hks (nodup_numeriseKeys h), ← mem_numeriseKeys h, hks]
  constructor
  · exact fun hq => ⟨List.mem_append_left _ hq, hdone q hq k List.mem_cons_self⟩
  · rintro ⟨hq, hlt⟩
    rcases List.mem_append.mp hq with hq | hq
    · exact hq
    rcases List.mem_cons.mp hq with rfl | hq
    · exact absurd hlt (lt_irrefl _)
    · exact absurd (hafter q hq) (lt_asymm hlt)

theorem isRoot_iff {items : Items} {k : Value} {e : Entity} {p : Int}
    (he : items.lookup k = some e) (hp : e.parentIndex = .int p) : IsRoot items k ↔ p = 0 := by
  constructor
  · rintro ⟨e', he', hroot⟩
    rw [he] at he'
    cases he'
    rw [hp] at hroot
    exact Value.int.inj (of_decide_eq_true hroot)
  · rintro rfl
    exact ⟨e, he, by rw [hp]; rfl⟩

/-- The entry `k` reaches the root through its parents, and `d` of the entries on the way, itself
among them, are numbered below their own parent. -/
inductive Descents (items : Items) : Value → Nat → Prop where
  | root {k : Value} {e : Entity} (he : items.lookup k = some e) (hp : e.parentIndex = .int 0) :
      Descents items k 0
  | up {k : Value} {e : Entity} {p : Int} {d : Nat} (he : items.lookup k = some e)
      (hp : e.parentIndex = .int p) (h0 : p ≠ 0) (hlt : p < num k)
      (h : Descents items (.str (toString p)) d) : Descents items k d
  | down {k : Value} {e : Entity} {p : Int} {d : Nat} (he : items.lookup k = some e)
      (hp : e.parentIndex = .int p) (h0 : p ≠ 0) (hlt : num k < p)
      (h : Descents items (.str (toString p)) d) : Descents items k (d + 1)

theorem Descents.mem {items : Items} {k : Value} {d : Nat} (h : Descents items k d) :
    k ∈ items := by
  cases h with
  | root he _ => exact Dict.mem_iff_lookup.mpr ⟨_, he⟩
  | up he _ _ _ _ => exact Dict.mem_iff_lookup.mpr ⟨_, he⟩
  | down he _ _ _ _ => exact Dict.mem_iff_lookup.mpr ⟨_, he⟩

/-- The parent of an entry decides how it reaches the root. -/
theorem descents_iff {items : Items} {k : Value} {e : Entity} {p : Int} {d : Nat}
    (he : items.lookup k = some e) (hp : e.parentIndex = .int p) :
    Descents items k d ↔
      (p = 0 ∧ d = 0) ∨ (p ≠ 0 ∧ p < num k ∧ Descents items (.str (toString p)) d) ∨
      (p ≠ 0 ∧ num k < p ∧ ∃ d', d = d' + 1 ∧ Descents items (.str (toString p)) d') := by
  constructor
  · intro h
    cases h with
    | root he' hp' =>
      obtain rfl := Option.some.inj (he.symm.trans he')
      exact Or.inl ⟨Value.int.inj (hp.symm.trans hp'), rfl⟩
    | up he' hp' h0 hlt h =>
      obtain rfl := Option.some.inj (he.symm.trans he')
      obtain rfl := Value.int.inj (hp.symm.trans hp')
      exact Or.inr (Or.inl ⟨h0, hlt, h⟩)
    | down he' hp' h0 hlt h =>
      obtain rfl := Option.some.inj (he.symm.trans he')
      obtain rfl := Value.int.inj (hp.symm.trans hp')
      exact Or.inr (Or.inr ⟨h0, hlt, _, rfl, h⟩)
  · rintro (⟨rfl, rfl⟩ | ⟨h0, hlt, h⟩ | ⟨h0, hlt, d', rfl, h⟩)
    · exact Descents.root he hp
    · exact Descents.up he hp h0 hlt h
    · exact Descents.down he hp h0 hlt h

theorem Descents.unique {items : Items} {k : Value} {d d' : Nat} (h : Descents items k d)
    (h' : Descents items k d') : d = d' := by
  induction h generalizing d' with
  | root he hp =>
    rcases (descents_iff he hp).mp h' with ⟨_, hd⟩ | ⟨h0, _⟩ | ⟨h0, _⟩
    · exact hd.symm
    · exact absurd rfl h0
    · exact absurd rfl h0
  | up he hp h0 hlt _ ih =>
    rcases (descents_iff he hp).mp h' with ⟨hp0, _⟩ | ⟨_, _, h⟩ | ⟨_, hlt', _⟩
    · exact absurd hp0 h0
    · exact ih h
    · exact absurd hlt (lt_asymm hlt')
  | down he hp h0 hlt _ ih =>
    rcases (descents_iff he hp).mp h' with ⟨hp0, _⟩ | ⟨_, hlt', _⟩ | ⟨_, _, _, rfl, h⟩
    · exact absurd hp0 h0
    · exact absurd hlt (lt_asymm hlt')
    · rw [ih h]

/-- How an entry reaches the root, told by the order in which the entries are attached. -/
theorem descents_step {items : Items} (hi : Indexed items) {k q : Value} {d : Nat}
    (hparent : HasParent items k q) :
    Descents items k d ↔ (IsRoot items k ∧ d = 0) ∨
      (¬ IsRoot items k ∧ Before items q k ∧ Descents items q d) ∨
      (¬ IsRoot items k ∧ ¬ Before items q k ∧ ∃ d', d = d' + 1 ∧ Descents items q d') := by
  obtain ⟨e, he, rfl⟩ := hparent
  obtain ⟨p, hp⟩ := hi.parent k e he
  have hroot := isRoot_iff he hp
  have hbefore := before_iff_num (q := .str (toString p)) hi (Dict.mem_iff_lookup.mpr ⟨e, he⟩)
  rw [num_toString] at hbefore
  have htext : e.parentIndex.toText = toString p := by rw [hp]; rfl
  rw [htext, descents_iff he hp, hroot, hbefore]
  constructor
  · rintro (h | ⟨h0, hlt, h⟩ | ⟨h0, hlt, h⟩)
    · exact Or.inl h
    · exact Or.inr (Or.inl ⟨h0, ⟨h.mem, hlt⟩, h⟩)
    · exact Or.inr (Or.inr ⟨h0, fun hc => lt_asymm hlt hc.2, h⟩)
  · rintro (h | ⟨h0, ⟨_, hlt⟩, h⟩ | ⟨h0, hnot, d', rfl, h⟩)
    · exact Or.inl h
    · exact Or.inr (Or.inl ⟨h0, hlt, h⟩)
    · refine Or.inr (Or.inr ⟨h0, lt_of_le_of_ne (not_lt.mp (fun hc => hnot ⟨h.mem, hc⟩)) ?_,
        d', rfl, h⟩)
      -- an entry that is its own parent does not reach the root
      intro heq
      obtain ⟨n, rfl⟩ := hi.key k (Dict.mem_iff_lookup.mpr ⟨e, he⟩)
      rw [num_toString] at heq
      subst heq
      rcases (descents_iff he hp).mp h with ⟨hp0, _⟩ | ⟨_, hlt, _⟩ | ⟨_, hlt, _⟩
      · exact h0 hp0
      · rw [num_toString] at hlt
        exact hlt.false
      · rw [num_toString] at hlt
        exact hlt.false

/-! ## Each pass brings in one more descent -/

/-- Every entry with at most `n` descents is in the tree. -/
def Reach (items : Items) (n : Nat) (st : Trees) : Prop :=
  ∀ k d, Descents items k d → d ≤ n → k ∈ st.topology.nodes

theorem exists_parent {items : Items} {k : Value} (hk : k ∈ items) :
    ∃ q, HasParent items k q := by
  obtain ⟨e, he⟩ := Dict.mem_iff_lookup.mp hk
  exact ⟨_, e, he, rfl⟩

/-- The top of a stray branch is numbered below its parent. -/
theorem Built.descends {items : Items} {done : List Value} {st : Trees}
    (h : Built items done st) (hi : Indexed items) {s : Value} {d : Nat}
    (hs : s ∈ st.strays.keys) (hd : Descents items s d) :
    ∃ q d', HasParent items s q ∧ d = d' + 1 ∧ Descents items q d' := by
  obtain ⟨q, hq⟩ := exists_parent hd.mem
  obtain ⟨hroot, hbefore⟩ := h.strayTop s hs
  rcases (descents_step hi hq).mp hd with ⟨hc, _⟩ | ⟨_, hc, _⟩ | ⟨_, _, d', rfl, hd'⟩
  · exact absurd hc hroot
  · exact absurd hc (hbefore q hq)
  · exact ⟨q, d', hq, rfl, hd'⟩

/-- An entry that reaches the root is outside the tree with the top of its stray branch. -/
theorem Built.reach {items : Items} {st : Trees} (h : Built items (numeriseKeys items) st)
    (hi : Indexed items) {n : Nat}
    (htop : ∀ s ∈ st.strays.keys, ∀ d ≤ n, ¬ Descents items s d) : Reach items n st := by
  have hdisjoint := h.disjoint (nodup_numeriseKeys hi)
  intro k d hd hle
  -- the entries between `k` and the top of its branch are attached ever earlier
  induction hpos : (numeriseKeys items).idxOf k using Nat.strongRecOn generalizing k with
  | ind pos ih =>
    subst hpos
    by_contra hout
    have hk := (mem_numeriseKeys hi).mpr hd.mem
    rcases h.outside hk hout with htop' | ⟨q, hq, hbefore, hstray⟩
    · exact htop k htop' d hle hd
    · rcases (descents_step hi hq).mp hd with ⟨hroot, _⟩ | ⟨_, _, hd'⟩ | ⟨_, hc, _⟩
      · exact hout (h.root k hk hroot)
      · exact hdisjoint (ih _ hbefore q hd' rfl) hstray
      · exact hc hbefore

/-- **One pass brings in one more descent**, in whatever order it meets the strays. -/
theorem Built.pass_reach {items : Items} {st : Trees} (h : Built items (numeriseKeys items) st)
    (hi : Indexed items) (o : KeyOrder) {n : Nat} (hreach : Reach items n st) :
    ∃ st', (o.order st.strays.keys).foldlM (moveStray items) st = .ok st' ∧
      Built items (numeriseKeys items) st' ∧ Reach items (n + 1) st' := by
  let J : List Value → Trees → Prop := fun rest st => Reach items n st ∧
    ∀ s ∈ st.strays.keys, s ∈ rest ∨ ∀ d ≤ n + 1, ¬ Descents items s d
  have hstep : ∀ s rest st st', Built items (numeriseKeys items) st → s ∈ st.strays.keys →
      Turn items st s st' → J (s :: rest) st → J rest st' := by
    rintro s rest st st' h hs ht ⟨hreach, htop⟩
    cases ht with
    | stays hparent hq =>
      refine ⟨hreach, fun k hk => ?_⟩
      rcases htop k hk with hmem | hnone
      · rcases List.mem_cons.mp hmem with rfl | hmem
        · refine Or.inr (fun d hle hd => ?_)
          obtain ⟨q', d', hq', rfl, hd'⟩ := h.descends hi hk hd
          obtain rfl := hparent.unique hq'
          exact hq (hreach _ d' hd' (by omega))
        · exact Or.inl hmem
      · exact Or.inr hnone
    | moves hparent hq hv =>
      have hmove := (h.move (nodup_numeriseKeys hi) hv hparent hq).2
      refine ⟨fun k d hd hle => hmove.mem_iff.mpr (List.mem_append_right _ (hreach k d hd hle)),
        fun k hk => ?_⟩
      have hkeys := Forest.keys_del hv
      have hnodup := Forest.nodup_keys (List.nodup_append.mp
        (h.nodes.nodup_iff.mpr (nodup_numeriseKeys hi))).2.1
      have hne : k ≠ s := fun hc =>
        (List.nodup_cons.mp (hkeys.nodup_iff.mp hnodup)).1 (hc ▸ hk)
      rcases htop k (hkeys.mem_iff.mpr (List.mem_cons_of_mem s hk)) with hmem | hnone
      · exact Or.inl ((List.mem_cons.mp hmem).resolve_left hne)
      · exact Or.inr hnone
  obtain ⟨st', hst', h', -, htop⟩ := h.pass o (nodup_numeriseKeys hi)
    (fun k hk => (mem_numeriseKeys hi).mp hk) hstep
    ⟨hreach, fun s hs => Or.inl (o.mem_order.mpr hs)⟩
  refine ⟨st', hst', h', h'.reach hi (fun s hs => ?_)⟩
  exact (htop s hs).resolve_left (fun hc => (by cases hc))

theorem Built.mergeStrays_reach {items : Items} (hi : Indexed items) (o : KeyOrder)
    (iterations : Nat) {st : Trees} {n : Nat} (h : Built items (numeriseKeys items) st)
    (hreach : Reach items n st) :
    ∃ st', mergeStrays o items iterations st = .ok st' ∧
      Built items (numeriseKeys items) st' ∧ Reach items (n + iterations) st' := by
  induction iterations generalizing st n with
  | zero => exact ⟨st, rfl, h, hreach⟩
  | succ iterations ih =>
    unfold mergeStrays
    by_cases hempty : st.strays.keys.isEmpty = true
    · refine ⟨st, by rw [if_pos hempty]; rfl, h, h.reach hi (fun s hs => ?_)⟩
      rw [List.isEmpty_iff.mp hempty] at hs
      cases hs
    · obtain ⟨st', hst', h', hreach'⟩ := h.pass_reach hi o hreach
      obtain ⟨st'', hst'', h'', hreach''⟩ := ih h' hreach'
      refine ⟨st'', by rw [if_neg hempty, hst']; exact hst'', h'', ?_⟩
      rwa [show n + (iterations + 1) = n + 1 + iterations by omega]

/-- The first loop brings in the entries without a descent. -/
theorem Built.reach_zero {items : Items} {st : Trees} (h : Built items (numeriseKeys items) st)
    (hi : Indexed items) : Reach items 0 st := by
  refine h.reach hi (fun s hs d hle hd => ?_)
  obtain ⟨_, d', _, rfl, _⟩ := h.descends hi hs hd
  omega

/-! ## Met in the worst order, a pass brings in no more than that -/

/-- Every entry of the tree has at most `n` descents. -/
def Low (items : Items) (n : Nat) (st : Trees) : Prop :=
  ∀ k ∈ st.topology.nodes, ∃ d ≤ n, Descents items k d

/-- The descents of an entry that reaches the root. -/
noncomputable def level (items : Items) (k : Value) : Nat :=
  open Classical in if h : ∃ d, Descents items k d then h.choose else 0

theorem level_eq {items : Items} {k : Value} {d : Nat} (h : Descents items k d) :
    level items k = d := by
  have hex : ∃ d, Descents items k d := ⟨d, h⟩
  rw [level, dif_pos hex]
  exact hex.choose_spec.unique h

/-- The strays with the most descents first. -/
noncomputable def deepFirst (items : Items) : KeyOrder where
  order l := l.insertionSort (fun a b => level items b ≤ level items a)
  perm l := List.perm_insertionSort _ l

theorem pairwise_deepFirst (items : Items) (l : List Value) :
    ((deepFirst items).order l).Pairwise (fun a b => level items b ≤ level items a) := by
  have : Std.Total (fun a b => level items b ≤ level items a) := ⟨fun a b => le_total _ _⟩
  have : IsTrans Value (fun a b => level items b ≤ level items a) :=
    ⟨fun a b c hab hbc => le_trans hbc hab⟩
  exact List.pairwise_insertionSort _ l

/-- After the first loop the tree holds no entry with a descent. -/
theorem Built.low_zero {items : Items} {st : Trees} (h : Built items (numeriseKeys items) st)
    (hi : Indexed items) (hearly : Early items st) : Low items 0 st := by
  intro k hk
  induction hpos : (numeriseKeys items).idxOf k using Nat.strongRecOn generalizing k with
  | ind pos ih =>
    subst hpos
    obtain ⟨q', hq'⟩ := exists_parent ((mem_numeriseKeys hi).mp (h.mem_done (Or.inl hk)))
    by_cases hroot : IsRoot items k
    · exact ⟨0, le_refl 0, (descents_step hi hq').mpr (Or.inl ⟨hroot, rfl⟩)⟩
    obtain ⟨q, hq⟩ := Forest.exists_mem_links hk none
    cases q with
    | none => exact absurd (h.top k (Forest.mem_keys_of_mem_links hq)) hroot
    | some q =>
      have hmem := Forest.mem_nodes_of_mem_links_fst hq (fun hc => (by cases hc))
      obtain ⟨d, hle, hd⟩ := ih _ (hearly q k hq) q hmem rfl
      exact ⟨d, hle, (descents_step hi (h.under q k hq)).mpr
        (Or.inr (Or.inl ⟨hroot, hearly q k hq, hd⟩))⟩

/-- The entries of a stray branch have the descents of its top. -/
theorem descents_branch {items : Items} (hi : Indexed items) {v : Tree} {s : Value} {d : Nat}
    (hs : Descents items s d)
    (hv : ∀ q k, (some q, k) ∈ v.links (some s) →
      ¬ IsRoot items k ∧ HasParent items k q ∧ Before items q k) :
    ∀ k ∈ v.nodes, Descents items k d := by
  induction v generalizing s with
  | empty => exact fun _ hk => (by cases hk)
  | entry k' sub rest ihs ihr =>
    obtain ⟨hroot, hparent, hbefore⟩ := hv s k' List.mem_cons_self
    have hk' : Descents items k' d :=
      (descents_step hi hparent).mpr (Or.inr (Or.inl ⟨hroot, hbefore, hs⟩))
    intro k hk
    rcases List.mem_cons.mp hk with rfl | hk
    · exact hk'
    rcases List.mem_append.mp hk with hk | hk
    · exact ihs hk' (fun q k hl => hv q k
        (List.mem_cons_of_mem _ (List.mem_append_left _ hl))) k hk
    · exact ihr hs (fun q k hl => hv q k
        (List.mem_cons_of_mem _ (List.mem_append_right _ hl))) k hk

/-- A stray that is moved brings in entries with one descent more than its parent. -/
theorem Built.descents_moved {items : Items} {st : Trees}
    (h : Built items (numeriseKeys items) st) (hi : Indexed items) {s q : Value} {v : Tree}
    {d : Nat} (hv : st.strays.get s = some v) (hparent : HasParent items s q)
    (hd : Descents items q d) : ∀ k ∈ s :: v.nodes, Descents items k (d + 1) := by
  obtain ⟨hroot, hbefore⟩ := h.strayTop s (Forest.mem_keys_iff.mpr ⟨v, hv⟩)
  have hs : Descents items s (d + 1) :=
    (descents_step hi hparent).mpr (Or.inr (Or.inr ⟨hroot, hbefore q hparent, d, rfl, hd⟩))
  have hbranch : ∀ q k, (some q, k) ∈ v.links (some s) →
      ¬ IsRoot items k ∧ HasParent items k q ∧ Before items q k := by
    intro q k hl
    have hstray := (Forest.links_del hv none).mem_iff.mpr
      (List.mem_append_left _ (List.mem_cons_of_mem _ hl))
    refine ⟨fun hk => ?_, h.strayUnder q k hstray⟩
    have hnode := Forest.mem_nodes_of_mem_links hstray
    exact h.disjoint (nodup_numeriseKeys hi) (h.root k (h.mem_done (Or.inr hnode)) hk) hnode
  intro k hk
  rcases List.mem_cons.mp hk with rfl | hk
  · exact hs
  · exact descents_branch hi hs hbranch k hk

theorem Built.pass_low {items : Items} {st : Trees} (h : Built items (numeriseKeys items) st)
    (hi : Indexed items) {n : Nat} (hlow : Low items n st) :
    ∃ st', ((deepFirst items).order st.strays.keys).foldlM (moveStray items) st = .ok st' ∧
      Built items (numeriseKeys items) st' ∧ Low items (n + 1) st' := by
  let J : List Value → Trees → Prop := fun rest st => Low items (n + 1) st ∧
    (∀ s ∈ rest, ∀ d, Descents items s d → n + 1 < d → Low items n st) ∧
    rest.Pairwise (fun a b => level items b ≤ level items a)
  have hstep : ∀ s rest st st', Built items (numeriseKeys items) st → s ∈ st.strays.keys →
      Turn items st s st' → J (s :: rest) st → J rest st' := by
    rintro s rest st st' h hs ht ⟨hlow, hdeep, hsorted⟩
    obtain ⟨hfirst, hsorted⟩ := List.pairwise_cons.mp hsorted
    cases ht with
    | stays _ _ => exact ⟨hlow, fun k hk => hdeep k (List.mem_cons_of_mem s hk), hsorted⟩
    | @moves q v hparent hq hv =>
      obtain ⟨d, hle, hd⟩ := hlow q hq
      have hbranch := h.descents_moved hi hv hparent hd
      have hs' := hbranch s List.mem_cons_self
      -- were the stray deeper than `n + 1`, the tree would not hold its parent yet
      have hle' : d + 1 ≤ n + 1 := by
        by_contra hgt
        obtain ⟨d', hle', hd'⟩ := hdeep s List.mem_cons_self (d + 1) hs' (by omega) q hq
        have := hd.unique hd'
        omega
      refine ⟨fun k hk => ?_, fun k hk d' hd' hgt => ?_, hsorted⟩
      · have hmove := (h.move (nodup_numeriseKeys hi) hv hparent hq).2
        rcases List.mem_append.mp (hmove.mem_iff.mp hk) with hk | hk
        · exact ⟨d + 1, hle', hbranch k hk⟩
        · exact hlow k hk
      · have := hfirst k hk
        rw [level_eq hd', level_eq hs'] at this
        omega
  obtain ⟨st', hst', h', hlow', -⟩ := h.pass (deepFirst items) (nodup_numeriseKeys hi)
    (fun k hk => (mem_numeriseKeys hi).mp hk) hstep
    ⟨fun k hk => (hlow k hk).imp (fun d hd => ⟨by omega, hd.2⟩), fun _ _ _ _ _ => hlow,
      pairwise_deepFirst items _⟩
  exact ⟨st', hst', h', hlow'⟩

theorem Built.mergeStrays_low {items : Items} (hi : Indexed items) (iterations : Nat)
    {st : Trees} {n : Nat} (h : Built items (numeriseKeys items) st) (hlow : Low items n st) :
    ∃ st', mergeStrays (deepFirst items) items iterations st = .ok st' ∧
      Low items (n + iterations) st' := by
  induction iterations generalizing st n with
  | zero => exact ⟨st, rfl, hlow⟩
  | succ iterations ih =>
    unfold mergeStrays
    by_cases hempty : st.strays.keys.isEmpty = true
    · exact ⟨st, by rw [if_pos hempty]; rfl,
        fun k hk => (hlow k hk).imp (fun d hd => ⟨by omega, hd.2⟩)⟩
    · obtain ⟨st', hst', h', hlow'⟩ := h.pass_low hi hlow
      obtain ⟨st'', hst'', hlow''⟩ := ih h' hlow'
      refine ⟨st'', by rw [if_neg hempty, hst']; exact hst'', ?_⟩
      rwa [show n + (iterations + 1) = n + 1 + iterations by omega]

/-! ## Completeness -/

/-- What the tree of numbered entries holds, with any number of passes. -/
theorem buildTree_spec {items : Items} (hi : Indexed items) (o : KeyOrder) (iterations : Nat) :
    ∃ st, Built items (numeriseKeys items) st ∧ Reach items iterations st ∧
      buildTree o items false (.int 0) iterations = .ok st.topology := by
  obtain ⟨st, hst, h, -⟩ := Built.foldlM_attachItem (nodup_numeriseKeys hi)
    (fun k hk => (mem_numeriseKeys hi).mp hk)
  obtain ⟨st', hst', h', hreach⟩ := Built.mergeStrays_reach hi o iterations h (h.reach_zero hi)
  rw [Nat.zero_add] at hreach
  refine ⟨st', h', hreach, ?_⟩
  rw [buildTree, hst, Except.ok_bind, hst', Except.ok_bind]
  rfl

/-- The entry `k` is in the tree that is returned. -/
def InTree (o : KeyOrder) (items : Items) (k : Value) : Prop :=
  ∃ t, entityTree o items = .ok t ∧ k ∈ t.nodes

/-- **An entry that reaches the root is in the tree**, whatever the order of the strays, exactly
when at most two entries on its way are numbered below their parent. -/
theorem inTree_iff {items : Items} (hi : Indexed items) {k : Value} {d : Nat}
    (hd : Descents items k d) : (∀ o, InTree o items k) ↔ d ≤ 2 := by
  constructor
  · intro h
    obtain ⟨t, ht, hk⟩ := h (deepFirst items)
    obtain ⟨st, hst, hbuilt, hearly⟩ := Built.foldlM_attachItem (nodup_numeriseKeys hi)
      (fun k hk => (mem_numeriseKeys hi).mp hk)
    obtain ⟨st', hst', hlow⟩ := Built.mergeStrays_low hi 2 hbuilt (hbuilt.low_zero hi hearly)
    rw [entityTree, buildTree, hst, Except.ok_bind, hst', Except.ok_bind] at ht
    cases ht
    obtain ⟨d', hle, hd'⟩ := hlow k hk
    have := hd.unique hd'
    omega
  · intro hle o
    obtain ⟨st, -, hreach, hst⟩ := buildTree_spec hi o 2
    exact ⟨st.topology, hst, hreach k d hd hle⟩

/-! ## Soundness -/

/-- What is below a node, at any depth. -/
theorem mem_nodes_of_transGen {t s : Tree} {n k : Value} (hnodup : t.nodes.Nodup)
    (hs : t.find n = some s) (h : Relation.TransGen (Under t) n k) : k ∈ s.nodes := by
  induction h with
  | single hk => exact Forest.mem_nodes_of_below hnodup hs List.mem_cons_self hk
  | tail _ hk ih => exact Forest.mem_nodes_of_below hnodup hs (List.mem_cons_of_mem n ih) hk

/-- No node is below itself. -/
theorem not_transGen_self {t : Tree} (hnodup : t.nodes.Nodup) (k : Value) :
    ¬ Relation.TransGen (Under t) k k := by
  intro h
  obtain ⟨m, hm, -⟩ := Relation.TransGen.head'_iff.mp h
  obtain ⟨s, hs⟩ := Forest.mem_nodes_iff.mp (Under.mem_parent hm)
  exact Forest.notMem_of_find hnodup hs (mem_nodes_of_transGen hnodup hs h)

/-- Every node of the tree is an entry and there once, directly under its own parent or at the top
with the parent 0, and no node is below itself. -/
structure Sound (items : Items) (t : Tree) : Prop where
  nodup : t.nodes.Nodup
  mem : ∀ k ∈ t.nodes, k ∈ items
  parent : ∀ q k, Under t q k → ∃ e, items.lookup k = some e ∧ q = .str e.parentIndex.toText
  top : ∀ k ∈ t.keys, ∃ e, items.lookup k = some e ∧ e.parentIndex = .int 0
  acyclic : ∀ k, ¬ Relation.TransGen (Under t) k k

/-- **The tree of any table is sound**, whatever the parents and the order of the strays, and with
any number of passes over them. -/
theorem buildTree_sound {items : Items} (hi : Indexed items) (o : KeyOrder) (iterations : Nat) :
    ∃ t, buildTree o items false (.int 0) iterations = .ok t ∧ Sound items t := by
  obtain ⟨st, hbuilt, -, hst⟩ := buildTree_spec hi o iterations
  have hnodup : st.topology.nodes.Nodup :=
    (List.nodup_append.mp (hbuilt.nodes.nodup_iff.mpr (nodup_numeriseKeys hi))).1
  refine ⟨st.topology, hst, hnodup, fun k hk => ?_, fun q k hk => ?_, fun k hk => ?_,
    not_transGen_self hnodup⟩
  · exact (mem_numeriseKeys hi).mp (hbuilt.mem_done (Or.inl hk))
  · obtain ⟨e, he, hq⟩ := hbuilt.under q k hk
    exact ⟨e, he, hq.symm⟩
  · obtain ⟨e, he, hroot⟩ := hbuilt.top k hk
    obtain ⟨p, hp⟩ := hi.parent k e he
    rw [hp] at hroot
    exact ⟨e, he, by rw [hp, Value.int.inj (of_decide_eq_true hroot)]⟩

/-! ### Chains of parts -/

/-- A part of which only the parent matters. -/
def part (p : Int) : Entity where
  parentIndex := .int p
  type := "module"
  description := ""
  serial := none
  relativePosition := .none
  swRev := none
  fwRev := none
  model := none
  physicalIndex := .none

/-- The table of parts given by their numbers and those of their parents. -/
def parts : List (Int × Int) → Items
  | [] => ∅
  | (n, p) :: l => AList.insert (.str (toString n)) (part p) (parts l)

theorem indexed_empty : Indexed ∅ where
  key := fun k hk => absurd hk (AList.notMem_empty k)
  parent := fun k e he => by
    rw [AList.lookup_empty] at he
    cases he

theorem Indexed.insert {items : Items} (h : Indexed items) (n : Int) {e : Entity} {p : Int}
    (hp : e.parentIndex = .int p) : Indexed (AList.insert (.str (toString n)) e items) where
  key := fun k hk => by
    rcases (AList.mem_insert _).mp hk with rfl | hk
    · exact ⟨n, rfl⟩
    · exact h.key k hk
  parent := fun k e' he' => by
    rw [Dict.lookup_insert_eq] at he'
    split_ifs at he' with hk
    · cases he'
      exact ⟨p, hp⟩
    · exact h.parent k e' he'

theorem indexed_parts (l : List (Int × Int)) : Indexed (parts l) := by
  induction l with
  | nil => exact indexed_empty
  | cons np l ih => exact ih.insert np.1 rfl

/-- Part `1` is its own parent, `2` and `3` are each other's, the parent of `4` is missing, and `6` is
under `5`. -/
theorem buildTree_sound_cycles :
    ∃ t, buildTree .stored (parts [(1, 1), (2, 3), (3, 2), (4, 9), (5, 0), (6, 5)]) false (.int 0) 2
      = .ok t ∧ Sound (parts [(1, 1), (2, 3), (3, 2), (4, 9), (5, 0), (6, 5)]) t :=
  buildTree_sound (indexed_parts _) .stored 2

/-- Part `1` is numbered below its parent. -/
theorem inTree_below :
    InTree KeyOrder.stored (parts [(1, 2), (2, 0)]) (.str (toString (1 : Int))) :=
  (inTree_iff (d := 1) (indexed_parts _)
    (Descents.down (e := part 2) (by decide) rfl (by decide) (by rw [num_toString]; decide)
      (Descents.root (e := part 0) (by decide) rfl))).mpr (by decide) KeyOrder.stored

/-- Four parts, each one numbered below the part that contains it. -/
def countdown : Items := parts [(1, 2), (2, 3), (3, 4), (4, 0)]

/-- With the strays met from the first to the last, the two passes move `3` and `2`, and leave
`1` behind. -/
theorem not_inTree_countdown :
    ¬ ∀ items, Indexed items → ∀ k, (∃ d, Descents items k d) → ∀ o, InTree o items k := by
  intro h
  have hreach : Descents countdown (.str (toString (1 : Int))) 3 :=
    Descents.down (e := part 2) (by decide) rfl (by decide) (by rw [num_toString]; decide)
      (Descents.down (e := part 3) (by decide) rfl (by decide)
        (by rw [num_toString]; decide)
        (Descents.down (e := part 4) (by decide) rfl (by decide)
          (by rw [num_toString]; decide)
          (Descents.root (e := part 0) (by decide) rfl)))
  obtain ⟨t, ht, hk⟩ := h countdown (indexed_parts _) _ ⟨3, hreach⟩ KeyOrder.stored
  have hlost : (entityTree KeyOrder.stored countdown).toOption.map
      (fun t => decide (Value.str (toString (1 : Int)) ∈ t.nodes)) = some false := by decide
  rw [ht] at hlost
  exact of_decide_eq_false (Option.some.inj hlost) hk

end Entities
