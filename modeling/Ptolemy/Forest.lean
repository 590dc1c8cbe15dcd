/-
# Forests: nested dictionaries of keys

A dictionary whose values are dictionaries of the same kind.  The entries are
kept in the order in which a loop meets them, an entry being a key, the
dictionary under it and the entries after it: so one recursion serves the
nesting and the entries alike.

`links` lists every key with the key above it.  It determines everything that
is asked of a forest without repeated keys, and each change of a forest has one
law that says what becomes of its links, up to their order.
-/
import Mathlib

/-- A dictionary of dictionaries: its entries, the first one met first. -/
inductive Forest (κ : Type) : Type where
  | empty : Forest κ
  | entry (k : κ) (sub rest : Forest κ) : Forest κ
  deriving DecidableEq, Repr

namespace Forest

variable {κ : Type}

/-! ## Keys, nodes, links -/

/-- The keys at the top. -/
def keys : Forest κ → List κ
  | empty => []
  | entry k _ rest => k :: rest.keys

/-- The keys at every depth. -/
def nodes : Forest κ → List κ
  | empty => []
  | entry k sub rest => k :: (sub.nodes ++ rest.nodes)

/-- Every node with the node it is directly under, those at the top with `p`. -/
def links (p : Option κ) : Forest κ → List (Option κ × κ)
  | empty => []
  | entry k sub rest => (p, k) :: (sub.links (some k) ++ rest.links p)

@[simp] theorem map_snd_links (t : Forest κ) (p : Option κ) :
    (t.links p).map Prod.snd = t.nodes := by
  induction t generalizing p with
  | empty => rfl
  | entry k sub rest ihs ihr => simp [links, nodes, ihs, ihr]

theorem mem_nodes_of_mem_links {t : Forest κ} {p q : Option κ} {k : κ}
    (h : (q, k) ∈ t.links p) : k ∈ t.nodes := by
  rw [← map_snd_links t p]
  exact List.mem_map_of_mem h

theorem exists_mem_links {t : Forest κ} {k : κ} (h : k ∈ t.nodes) (p : Option κ) :
    ∃ q, (q, k) ∈ t.links p := by
  rw [← map_snd_links t p, List.mem_map] at h
  obtain ⟨⟨q, k'⟩, hmem, rfl⟩ := h
  exact ⟨q, hmem⟩

theorem keys_sublist_nodes (t : Forest κ) : t.keys.Sublist t.nodes := by
  induction t with
  | empty => exact List.Sublist.refl _
  | entry k sub rest _ ih =>
    exact (ih.trans (List.sublist_append_right sub.nodes rest.nodes)).cons_cons k

theorem mem_nodes_of_mem_keys {t : Forest κ} {k : κ} (h : k ∈ t.keys) : k ∈ t.nodes :=
  t.keys_sublist_nodes.subset h

theorem nodup_keys {t : Forest κ} (h : t.nodes.Nodup) : t.keys.Nodup :=
  h.sublist t.keys_sublist_nodes

theorem mem_links_of_mem_keys {t : Forest κ} {k : κ} (h : k ∈ t.keys) (p : Option κ) :
    (p, k) ∈ t.links p := by
  induction t with
  | empty => cases h
  | entry k' sub rest _ ih =>
    rcases List.mem_cons.mp h with rfl | h
    · exact List.mem_cons_self
    · exact List.mem_cons_of_mem _ (List.mem_append_right _ (ih h))

/-- The node above another one is the given top or a node itself. -/
theorem mem_nodes_of_mem_links_fst {t : Forest κ} {p : Option κ} {q k : κ}
    (h : (some q, k) ∈ t.links p) (hp : p ≠ some q) : q ∈ t.nodes := by
  induction t generalizing p with
  | empty => cases h
  | entry k' sub rest ihs ihr =>
    simp only [links, List.mem_cons, Prod.mk.injEq, List.mem_append] at h
    simp only [nodes, List.mem_cons, List.mem_append]
    rcases h with ⟨h, _⟩ | h | h
    · exact absurd h.symm hp
    · by_cases hk : q = k'
      · exact Or.inl hk
      · exact Or.inr (Or.inl (ihs h (fun hc => hk (Option.some.inj hc).symm)))
    · exact Or.inr (Or.inr (ihr h hp))

/-- Below a node no link is one of the top. -/
theorem none_notMem_links (t : Forest κ) (q k : κ) : (none, k) ∉ t.links (some q) := by
  intro h
  induction t generalizing q with
  | empty => cases h
  | entry k' sub rest ihs ihr =>
    simp only [links, List.mem_cons, Prod.mk.injEq, List.mem_append] at h
    rcases h with ⟨h, _⟩ | h | h
    · cases h
    · exact ihs _ h
    · exact ihr _ h

theorem mem_keys_of_mem_links {t : Forest κ} {k : κ} (h : (none, k) ∈ t.links none) :
    k ∈ t.keys := by
  induction t with
  | empty => cases h
  | entry k' sub rest _ ih =>
    simp only [links, List.mem_cons, Prod.mk.injEq, true_and, List.mem_append] at h
    rcases h with rfl | h | h
    · exact List.mem_cons_self
    · exact absurd h (none_notMem_links sub k' k)
    · exact List.mem_cons_of_mem _ (ih h)

/-! ## Reading -/

variable [DecidableEq κ]

/-- The dictionary under the first node `n` that a depth-first search meets. -/
def find (n : κ) : Forest κ → Option (Forest κ)
  | empty => none
  | entry k sub rest => if k = n then some sub else (sub.find n).or (rest.find n)

/-- The dictionary under the key `n` at the top. -/
def get (n : κ) : Forest κ → Option (Forest κ)
  | empty => none
  | entry k sub rest => if k = n then some sub else rest.get n

theorem find_eq_none {t : Forest κ} {n : κ} : t.find n = none ↔ n ∉ t.nodes := by
  induction t with
  | empty => simp [find, nodes]
  | entry k sub rest ihs ihr =>
    by_cases h : k = n
    · simp [find, nodes, h]
    · have h' : ¬ n = k := fun hc => h hc.symm
      simp [find, nodes, h, h', Option.or_eq_none_iff, ihs, ihr]

theorem mem_nodes_iff {t : Forest κ} {n : κ} : n ∈ t.nodes ↔ ∃ s, t.find n = some s := by
  rw [← not_iff_not, ← find_eq_none, ← Option.not_isSome_iff_eq_none, Option.isSome_iff_exists]

theorem get_eq_none {t : Forest κ} {n : κ} : t.get n = none ↔ n ∉ t.keys := by
  induction t with
  | empty => simp [get, keys]
  | entry k sub rest _ ih =>
    by_cases h : k = n
    · simp [get, keys, h]
    · have h' : ¬ n = k := fun hc => h hc.symm
      simp [get, keys, h, h', ih]

theorem mem_keys_iff {t : Forest κ} {n : κ} : n ∈ t.keys ↔ ∃ s, t.get n = some s := by
  rw [← not_iff_not, ← get_eq_none, ← Option.not_isSome_iff_eq_none, Option.isSome_iff_exists]

/-- What is under a node keeps its links. -/
theorem links_subset_of_find {t s : Forest κ} {n : κ} (h : t.find n = some s) (p : Option κ) :
    s.links (some n) ⊆ t.links p := by
  induction t generalizing p with
  | empty => cases h
  | entry k sub rest ihs ihr =>
    intro l hl
    rw [find] at h
    split_ifs at h with hk
    · cases h
      subst hk
      exact List.mem_cons_of_mem _ (List.mem_append_left _ hl)
    · rcases Option.or_eq_some_iff.mp h with h | ⟨_, h⟩
      · exact List.mem_cons_of_mem _ (List.mem_append_left _ (ihs h _ hl))
      · exact List.mem_cons_of_mem _ (List.mem_append_right _ (ihr h _ hl))

/-! ## Writing -/

/-- `t[n] = v`, at the top. -/
def set : Forest κ → κ → Forest κ → Forest κ
  | empty, n, v => entry n v empty
  | entry k sub rest, n, v => if k = n then entry k v rest else entry k sub (rest.set n v)

/-- `t[n]`, at the top, which makes an empty entry where there is none. -/
def touch (n : κ) (t : Forest κ) : Forest κ := if n ∈ t.keys then t else t.set n empty

/-- `del t[n]`, at the top. -/
def del (n : κ) : Forest κ → Forest κ
  | empty => empty
  | entry k sub rest => if k = n then rest else entry k sub (rest.del n)

/-- The forest after a change of the dictionary under the first node `n`. -/
def modify (n : κ) (f : Forest κ → Forest κ) : Forest κ → Forest κ
  | empty => empty
  | entry k sub rest =>
    if k = n then entry k (f sub) rest
    else if (sub.find n).isSome then entry k (sub.modify n f) rest
    else entry k sub (rest.modify n f)

theorem links_set {t : Forest κ} {n : κ} (h : n ∉ t.keys) (v : Forest κ) (p : Option κ) :
    ((t.set n v).links p).Perm (((p, n) :: v.links (some n)) ++ t.links p) := by
  induction t with
  | empty => simp [set, links]
  | entry k sub rest _ ih =>
    obtain ⟨hk, hrest⟩ := not_or.mp (fun hc => h (List.mem_cons.mpr hc))
    have hk' : ¬ k = n := fun hc => hk hc.symm
    simp only [set, if_neg hk', links]
    calc (p, k) :: (sub.links (some k) ++ (rest.set n v).links p)
        _ = ((p, k) :: sub.links (some k)) ++ (rest.set n v).links p := rfl
        List.Perm _ (((p, k) :: sub.links (some k)) ++
            (((p, n) :: v.links (some n)) ++ rest.links p)) := (ih hrest).append_left _
        List.Perm _ _ := List.perm_append_comm_assoc _ _ _

theorem links_del {t v : Forest κ} {n : κ} (h : t.get n = some v) (p : Option κ) :
    (t.links p).Perm (((p, n) :: v.links (some n)) ++ (t.del n).links p) := by
  induction t with
  | empty => cases h
  | entry k sub rest _ ih =>
    rw [get] at h
    by_cases hk : k = n
    · rw [if_pos hk] at h
      cases h
      subst hk
      simp [del, links]
    · rw [if_neg hk] at h
      simp only [del, if_neg hk, links]
      exact ((ih h).append_left ((p, k) :: sub.links (some k))).trans
        (List.perm_append_comm_assoc _ _ _)

theorem keys_del {t v : Forest κ} {n : κ} (h : t.get n = some v) :
    t.keys.Perm (n :: (t.del n).keys) := by
  induction t with
  | empty => cases h
  | entry k sub rest _ ih =>
    rw [get] at h
    by_cases hk : k = n
    · simp [del, keys, hk]
    · rw [if_neg hk] at h
      simp only [del, if_neg hk, keys]
      exact ((ih h).cons k).trans (List.Perm.swap _ _ _)

/-- **Changing the dictionary under a node** exchanges its links for those of the new one. -/
theorem links_modify {t s : Forest κ} {n : κ} (h : t.find n = some s) (f : Forest κ → Forest κ)
    (p : Option κ) :
    ((t.modify n f).links p ++ s.links (some n)).Perm (t.links p ++ (f s).links (some n)) := by
  induction t generalizing p with
  | empty => cases h
  | entry k sub rest ihs ihr =>
    rw [find] at h
    by_cases hk : k = n
    · rw [if_pos hk] at h
      cases h
      subst hk
      simp only [modify, if_true, links, List.cons_append, List.append_assoc]
      exact ((List.perm_append_comm.append_left _).trans
        ((List.perm_append_comm_assoc _ _ _).trans
          (List.perm_append_comm.append_left _))).cons _
    · rw [if_neg hk] at h
      by_cases hs : (sub.find n).isSome
      · obtain ⟨s', hs'⟩ := Option.isSome_iff_exists.mp hs
        rw [hs', Option.some_or] at h
        cases h
        simp only [modify, if_neg hk, hs, if_true, links, List.cons_append, List.append_assoc]
        refine List.Perm.cons _ ?_
        calc (sub.modify n f).links (some k) ++ (rest.links p ++ s.links (some n))
            List.Perm _ (rest.links p ++ ((sub.modify n f).links (some k) ++ s.links (some n))) :=
              List.perm_append_comm_assoc _ _ _
            List.Perm _ (rest.links p ++ (sub.links (some k) ++ (f s).links (some n))) :=
              (ihs hs' _).append_left _
            List.Perm _ _ := List.perm_append_comm_assoc _ _ _
      · rw [Option.not_isSome_iff_eq_none.mp hs, Option.none_or] at h
        simp only [modify, if_neg hk, if_neg hs, links, List.cons_append, List.append_assoc]
        exact ((ihr h p).append_left _).cons _

theorem notMem_keys_of_find {t s : Forest κ} {n c : κ} (h : t.find n = some s)
    (hc : c ∉ t.nodes) : c ∉ s.keys :=
  fun hmem => hc (mem_nodes_of_mem_links
    (links_subset_of_find h none (mem_links_of_mem_keys hmem (some n))))

/-- A change that adds links to the dictionary under a node adds them to the forest. -/
theorem links_modify_add {t s : Forest κ} {n : κ} {f : Forest κ → Forest κ}
    {l : List (Option κ × κ)} (h : t.find n = some s)
    (hf : ((f s).links (some n)).Perm (l ++ s.links (some n))) (p : Option κ) :
    ((t.modify n f).links p).Perm (l ++ t.links p) := by
  rw [← List.perm_append_right_iff (s.links (some n)), List.append_assoc]
  exact (links_modify h f p).trans ((hf.append_left _).trans (List.perm_append_comm_assoc _ _ _))

/-- Putting a branch under a node. -/
theorem links_modify_set {t : Forest κ} {n c : κ} (hn : n ∈ t.nodes) (hc : c ∉ t.nodes)
    (v : Forest κ) (p : Option κ) :
    ((t.modify n (fun s => s.set c v)).links p).Perm
      (((some n, c) :: v.links (some c)) ++ t.links p) := by
  obtain ⟨s, hs⟩ := mem_nodes_iff.mp hn
  exact links_modify_add hs (links_set (notMem_keys_of_find hs hc) v _) p

theorem links_touch {t : Forest κ} {n : κ} (h : n ∉ t.keys) (p : Option κ) :
    ((t.touch n).links p).Perm ((p, n) :: t.links p) := by
  rw [touch, if_neg h]
  exact links_set h .empty p

/-- A change that leaves the dictionary under a node as it is. -/
theorem links_modify_id {t s : Forest κ} {n : κ} {f : Forest κ → Forest κ} (h : t.find n = some s)
    (hf : f s = s) (p : Option κ) : ((t.modify n f).links p).Perm (t.links p) := by
  have := links_modify h f p
  rwa [hf, List.perm_append_right_iff] at this

/-- Making an empty entry under a node. -/
theorem links_modify_touch {t : Forest κ} {n c : κ} (hn : n ∈ t.nodes) (hc : c ∉ t.nodes)
    (p : Option κ) :
    ((t.modify n (fun s => s.touch c)).links p).Perm ((some n, c) :: t.links p) := by
  obtain ⟨s, hs⟩ := mem_nodes_iff.mp hn
  exact links_modify_add (l := [(some n, c)]) hs
    (links_touch (notMem_keys_of_find hs hc) _) p

omit [DecidableEq κ] in
theorem nodes_perm_of_links {t u : Forest κ} {p q : Option κ} {l : List (Option κ × κ)}
    (h : (t.links p).Perm (l ++ u.links q)) : t.nodes.Perm (l.map Prod.snd ++ u.nodes) := by
  have := h.map Prod.snd
  rwa [List.map_append, map_snd_links, map_snd_links] at this

/-! ## Reading after a change -/

theorem nodes_subset_of_find {t s : Forest κ} {n : κ} (h : t.find n = some s) :
    s.nodes ⊆ t.nodes := by
  intro k hk
  obtain ⟨q, hq⟩ := exists_mem_links hk (some n)
  exact mem_nodes_of_mem_links (links_subset_of_find h none hq)

theorem nodes_subset_of_get {t s : Forest κ} {n : κ} (h : t.get n = some s) :
    s.nodes ⊆ t.nodes := by
  intro k hk
  have hperm := nodes_perm_of_links (links_del h none)
  exact hperm.mem_iff.mpr (List.mem_append_left _
    (by rw [List.map_cons, map_snd_links]; exact List.mem_cons_of_mem n hk))

theorem modify_of_notMem {t : Forest κ} {n : κ} (h : n ∉ t.nodes) (f : Forest κ → Forest κ) :
    t.modify n f = t := by
  induction t with
  | empty => rfl
  | entry k sub rest _ ih =>
    simp only [nodes, List.mem_cons, List.mem_append, not_or] at h
    obtain ⟨hk, hsub, hrest⟩ := h
    have hk' : ¬ k = n := fun hc => hk hc.symm
    rw [modify, if_neg hk', find_eq_none.mpr hsub, ih hrest]
    rfl

theorem find_modify_self {t s : Forest κ} {n : κ} (h : t.find n = some s)
    (f : Forest κ → Forest κ) : (t.modify n f).find n = some (f s) := by
  induction t with
  | empty => cases h
  | entry k sub rest ihs ihr =>
    rw [find] at h
    by_cases hk : k = n
    · rw [if_pos hk] at h
      cases h
      simp [modify, find, hk]
    · rw [if_neg hk] at h
      cases hs : sub.find n with
      | some s' =>
        rw [hs, Option.some_or] at h
        cases h
        simp [modify, find, hk, hs, ihs hs]
      | none =>
        rw [hs, Option.none_or] at h
        simp [modify, find, hk, hs, ihr h]

/-- What is found under a node once the dictionary under another one has changed. -/
theorem find_modify_ne {t : Forest κ} {n q : κ} {f : Forest κ → Forest κ} (hne : n ≠ q)
    (hnodup : t.nodes.Nodup) (hf : ∀ u, t.find q = some u → (f u).find n = u.find n) :
    (t.modify q f).find n = (t.find n).map (fun s => s.modify q f) := by
  have hid : ∀ {u : Forest κ}, q ∉ u.nodes →
      (u.find n).map (fun s => s.modify q f) = u.find n := by
    intro u hq
    cases hu : u.find n with
    | none => rfl
    | some s =>
      rw [Option.map_some, modify_of_notMem (fun hc => hq (nodes_subset_of_find hu hc))]
  induction t with
  | empty => rfl
  | entry k sub rest ihs ihr =>
    simp only [nodes, List.nodup_cons, List.mem_append, not_or, List.nodup_append'] at hnodup
    obtain ⟨⟨hksub, hkrest⟩, hsub, hrest, hdisjoint⟩ := hnodup
    rw [find]
    by_cases hkq : k = q
    · subst hkq
      have hk : ¬ k = n := fun hc => hne hc.symm
      rw [modify, if_pos rfl, find, if_neg hk, if_neg hk, hf sub (by rw [find, if_pos rfl]),
        Option.map_or, hid hksub, hid hkrest]
    · rw [modify, if_neg hkq]
      cases hs : sub.find q with
      | some u =>
        have hmem : q ∈ sub.nodes := mem_nodes_iff.mpr ⟨u, hs⟩
        have hrest' : q ∉ rest.nodes := fun hc => hdisjoint hmem hc
        have ih := ihs hsub (fun u' hu' => hf u' (by rw [find, if_neg hkq, hu', Option.some_or]))
        rw [Option.isSome_some, if_pos rfl, find]
        by_cases hk : k = n
        · rw [if_pos hk, if_pos hk, Option.map_some]
        · rw [if_neg hk, if_neg hk, ih, Option.map_or, hid hrest']
      | none =>
        have hsub' : q ∉ sub.nodes := find_eq_none.mp hs
        have ih := ihr hrest (fun u' hu' => hf u' (by rw [find, if_neg hkq, hs, hu', Option.none_or]))
        rw [if_neg (by simp), find]
        by_cases hk : k = n
        · rw [if_pos hk, if_pos hk, Option.map_some, modify_of_notMem hsub']
        · rw [if_neg hk, if_neg hk, ih, Option.map_or, hid hsub']

theorem get_modify {t : Forest κ} {c q : κ} {f : Forest κ → Forest κ}
    (hnodup : t.nodes.Nodup) :
    (t.modify q f).get c = (t.get c).map (fun v => if c = q then f v else v.modify q f) := by
  have hid : ∀ {u : Forest κ}, q ∉ u.nodes →
      (u.get c).map (fun v => if c = q then f v else v.modify q f) = u.get c := by
    intro u hq
    cases hu : u.get c with
    | none => rfl
    | some v =>
      have hne : c ≠ q := fun hc => hq (hc ▸ mem_nodes_of_mem_keys (mem_keys_iff.mpr ⟨v, hu⟩))
      rw [Option.map_some, if_neg hne, modify_of_notMem (fun hc => hq (nodes_subset_of_get hu hc))]
  induction t with
  | empty => rfl
  | entry k sub rest _ ihr =>
    simp only [nodes, List.nodup_cons, List.mem_append, not_or, List.nodup_append'] at hnodup
    obtain ⟨⟨hksub, hkrest⟩, hsub, hrest, hdisjoint⟩ := hnodup
    rw [get]
    by_cases hkq : k = q
    · subst hkq
      rw [modify, if_pos rfl, get]
      by_cases hk : k = c
      · rw [if_pos hk, if_pos hk, Option.map_some, if_pos hk.symm]
      · rw [if_neg hk, if_neg hk, hid hkrest]
    · rw [modify, if_neg hkq]
      cases hs : sub.find q with
      | some u =>
        have hrest' : q ∉ rest.nodes := fun hc => hdisjoint (mem_nodes_iff.mpr ⟨u, hs⟩) hc
        rw [Option.isSome_some, if_pos rfl, get]
        by_cases hk : k = c
        · rw [if_pos hk, if_pos hk, Option.map_some, if_neg (fun hc => hkq (hk.trans hc))]
        · rw [if_neg hk, if_neg hk, hid hrest']
      | none =>
        have hsub' : q ∉ sub.nodes := find_eq_none.mp hs
        rw [if_neg (by simp), get]
        by_cases hk : k = c
        · rw [if_pos hk, if_pos hk, Option.map_some, if_neg (fun hc => hkq (hk.trans hc)),
            modify_of_notMem hsub']
        · rw [if_neg hk, if_neg hk, ihr hrest]

/-! ## Forests without repeated nodes -/

omit [DecidableEq κ] in
/-- A node is directly under one place. -/
theorem links_unique {t : Forest κ} (hnodup : t.nodes.Nodup) {p q q' : Option κ} {k : κ}
    (h : (q, k) ∈ t.links p) (h' : (q', k) ∈ t.links p) : q = q' := by
  rw [← map_snd_links t p] at hnodup
  exact congrArg Prod.fst (List.inj_on_of_nodup_map hnodup h h' rfl)

omit [DecidableEq κ] in
theorem mem_links_cases {t : Forest κ} {p q : Option κ} {k : κ} (h : (q, k) ∈ t.links p) :
    (q = p ∧ k ∈ t.keys) ∨ ∃ n ∈ t.nodes, q = some n := by
  induction t generalizing p with
  | empty => cases h
  | entry k' sub rest ihs ihr =>
    simp only [links, List.mem_cons, Prod.mk.injEq, List.mem_append] at h
    rcases h with ⟨rfl, rfl⟩ | h | h
    · exact Or.inl ⟨rfl, List.mem_cons_self⟩
    · rcases ihs h with ⟨rfl, _⟩ | ⟨n, hn, rfl⟩
      · exact Or.inr ⟨k', List.mem_cons_self, rfl⟩
      · exact Or.inr ⟨n, List.mem_cons_of_mem _ (List.mem_append_left _ hn), rfl⟩
    · rcases ihr h with ⟨rfl, hk⟩ | ⟨n, hn, rfl⟩
      · exact Or.inl ⟨rfl, List.mem_cons_of_mem _ hk⟩
      · exact Or.inr ⟨n, List.mem_cons_of_mem _ (List.mem_append_right _ hn), rfl⟩

omit [DecidableEq κ] in
/-- The links below the top do not depend on what the top is under. -/
theorem mem_links_of_ne {t : Forest κ} {p q : Option κ} {k : κ} (h : (q, k) ∈ t.links p)
    (hq : q ≠ p) (p' : Option κ) : (q, k) ∈ t.links p' := by
  induction t generalizing p p' with
  | empty => cases h
  | entry k' sub rest ihs ihr =>
    simp only [links, List.mem_cons, Prod.mk.injEq, List.mem_append] at h ⊢
    rcases h with ⟨h, -⟩ | h | h
    · exact absurd h hq
    · exact Or.inr (Or.inl h)
    · exact Or.inr (Or.inr (ihr h hq p'))

/-- What is directly under a node are the keys of the dictionary that is found there. -/
theorem mem_links_iff {t : Forest κ} (hnodup : t.nodes.Nodup) {p : Option κ} {n c : κ}
    (hp : p ≠ some n) : (some n, c) ∈ t.links p ↔ ∃ s, t.find n = some s ∧ c ∈ s.keys := by
  constructor
  · intro h
    induction t generalizing p with
    | empty => cases h
    | entry k sub rest ihs ihr =>
      simp only [nodes, List.nodup_cons, List.mem_append, not_or, List.nodup_append'] at hnodup
      obtain ⟨⟨hksub, hkrest⟩, hsub, hrest, hdisjoint⟩ := hnodup
      simp only [links, List.mem_cons, Prod.mk.injEq, List.mem_append] at h
      rw [find]
      rcases h with ⟨h, _⟩ | h | h
      · exact absurd h.symm hp
      · by_cases hk : k = n
        · subst hk
          rw [if_pos rfl]
          rcases mem_links_cases h with ⟨_, hc⟩ | ⟨m, hm, heq⟩
          · exact ⟨sub, rfl, hc⟩
          · cases heq
            exact absurd hm hksub
        · obtain ⟨s, hs, hc⟩ := ihs hsub (fun hc => hk (Option.some.inj hc)) h
          exact ⟨s, by rw [if_neg hk, hs, Option.some_or], hc⟩
      · obtain ⟨s, hs, hc⟩ := ihr hrest hp h
        have hn : n ∈ rest.nodes := mem_nodes_iff.mpr ⟨s, hs⟩
        have hk : k ≠ n := fun hc => hkrest (hc ▸ hn)
        have hsub' : sub.find n = none := find_eq_none.mpr (fun hc => hdisjoint hc hn)
        exact ⟨s, by rw [if_neg hk, hsub', Option.none_or, hs], hc⟩
  · rintro ⟨s, hs, hc⟩
    exact links_subset_of_find hs p (mem_links_of_mem_keys hc (some n))

/-- Taking a branch out from under a node. -/
theorem links_modify_del {t s sub : Forest κ} {n c : κ} (hn : t.find n = some s)
    (hc : s.get c = some sub) (p : Option κ) :
    (t.links p).Perm (((some n, c) :: sub.links (some c)) ++
      (t.modify n (fun u => u.del c)).links p) := by
  have hmodify := links_modify hn (fun u => u.del c) p
  have hdel := links_del hc (some n)
  rw [← List.perm_append_right_iff ((s.del c).links (some n)), List.append_assoc]
  calc t.links p ++ (s.del c).links (some n)
      List.Perm _ ((t.modify n (fun u => u.del c)).links p ++ s.links (some n)) := hmodify.symm
      List.Perm _ ((t.modify n (fun u => u.del c)).links p ++
          (((some n, c) :: sub.links (some c)) ++ (s.del c).links (some n))) :=
        hdel.append_left _
      List.Perm _ _ := List.perm_append_comm_assoc _ _ _

/-- A node does not occur below itself. -/
theorem notMem_of_find {t s : Forest κ} {n : κ} (hnodup : t.nodes.Nodup)
    (h : t.find n = some s) : n ∉ s.nodes := by
  induction t with
  | empty => cases h
  | entry k sub rest ihs ihr =>
    simp only [nodes, List.nodup_cons, List.mem_append, not_or, List.nodup_append'] at hnodup
    obtain ⟨⟨hksub, -⟩, hsub, hrest, -⟩ := hnodup
    rw [find] at h
    split_ifs at h with hk
    · cases h
      exact hk ▸ hksub
    · rcases Option.or_eq_some_iff.mp h with h | ⟨_, h⟩
      · exact ihs hsub h
      · exact ihr hrest h

theorem nodup_of_find {t s : Forest κ} {n : κ} (hnodup : t.nodes.Nodup)
    (h : t.find n = some s) : s.nodes.Nodup := by
  induction t with
  | empty => cases h
  | entry k sub rest ihs ihr =>
    simp only [nodes, List.nodup_cons, List.nodup_append'] at hnodup
    obtain ⟨-, hsub, hrest, -⟩ := hnodup
    rw [find] at h
    split_ifs at h with hk
    · cases h
      exact hsub
    · rcases Option.or_eq_some_iff.mp h with h | ⟨_, h⟩
      · exact ihs hsub h
      · exact ihr hrest h

theorem nodup_of_get {t s : Forest κ} {n : κ} (hnodup : t.nodes.Nodup)
    (h : t.get n = some s) : (n :: s.nodes).Nodup := by
  have hperm := (nodes_perm_of_links (links_del h none)).nodup_iff.mp hnodup
  rw [List.map_cons, map_snd_links] at hperm
  exact (List.nodup_append.mp hperm).1

theorem set_of_get {t v : Forest κ} {n : κ} (h : t.get n = some v) : t.set n v = t := by
  induction t with
  | empty => cases h
  | entry k sub rest _ ih =>
    rw [get] at h
    by_cases hk : k = n
    · rw [if_pos hk] at h
      cases h
      rw [set, if_pos hk]
    · rw [if_neg hk] at h
      rw [set, if_neg hk, ih h]

theorem find_set {t v : Forest κ} {n c : κ} (hc : c ∉ t.keys) (hne : c ≠ n)
    (hv : n ∉ v.nodes) : (t.set c v).find n = t.find n := by
  induction t with
  | empty => simp [set, find, hne, find_eq_none.mpr hv]
  | entry k sub rest _ ih =>
    obtain ⟨hk, hrest⟩ := not_or.mp (fun h => hc (List.mem_cons.mpr h))
    have hk' : ¬ k = c := fun hc => hk hc.symm
    rw [set, if_neg hk', find, find, ih hrest]

theorem get_set_ne {t v : Forest κ} {n c : κ} (hne : c ≠ n) : (t.set c v).get n = t.get n := by
  induction t with
  | empty => simp [set, get, hne]
  | entry k sub rest _ ih =>
    rw [set]
    by_cases hk : k = c
    · have hk' : ¬ k = n := fun hc => hne (hk.symm.trans hc)
      rw [if_pos hk, get, get, if_neg hk', if_neg hk']
    · rw [if_neg hk, get, get, ih]

theorem del_of_notMem {t : Forest κ} {n : κ} (h : n ∉ t.keys) : t.del n = t := by
  induction t with
  | empty => rfl
  | entry k sub rest _ ih =>
    obtain ⟨hk, hrest⟩ := not_or.mp (fun hc => h (List.mem_cons.mpr hc))
    rw [del, if_neg (fun hc => hk hc.symm), ih hrest]

theorem find_of_get {t v : Forest κ} {n : κ} (hnodup : t.nodes.Nodup) (h : t.get n = some v) :
    t.find n = some v := by
  induction t with
  | empty => cases h
  | entry k sub rest _ ih =>
    simp only [nodes, List.nodup_cons, List.nodup_append'] at hnodup
    obtain ⟨-, -, hrest, hdisjoint⟩ := hnodup
    rw [get] at h
    rw [find]
    by_cases hk : k = n
    · rw [if_pos hk] at h ⊢
      exact h
    · rw [if_neg hk] at h ⊢
      have hmem := mem_nodes_of_mem_keys (mem_keys_iff.mpr ⟨v, h⟩)
      rw [find_eq_none.mpr (fun hc => hdisjoint hc hmem), Option.none_or, ih hrest h]

/-- What is below a node is found there. -/
theorem find_trans {t s : Forest κ} {n q : κ} (hnodup : t.nodes.Nodup) (h : t.find n = some s)
    (hq : q ∈ s.nodes) : t.find q = s.find q := by
  induction t with
  | empty => cases h
  | entry k sub rest ihs ihr =>
    simp only [nodes, List.nodup_cons, List.mem_append, not_or, List.nodup_append'] at hnodup
    obtain ⟨⟨hksub, hkrest⟩, hsub, hrest, hdisjoint⟩ := hnodup
    rw [find] at h
    rw [find]
    by_cases hk : k = n
    · rw [if_pos hk] at h
      cases h
      have hkq : ¬ k = q := fun hc => hksub (hc ▸ hq)
      rw [if_neg hkq, find_eq_none.mpr (fun hc => hdisjoint hq hc), Option.or_none]
    · rw [if_neg hk] at h
      rcases Option.or_eq_some_iff.mp h with h | ⟨_, h⟩
      · have hmem : q ∈ sub.nodes := nodes_subset_of_find h hq
        rw [if_neg (fun hc : k = q => hksub (hc ▸ hmem)), ihs hsub h,
          find_eq_none.mpr (fun hc => hdisjoint hmem hc), Option.or_none]
      · have hmem : q ∈ rest.nodes := nodes_subset_of_find h hq
        rw [if_neg (fun hc : k = q => hkrest (hc ▸ hmem)),
          find_eq_none.mpr (fun hc => hdisjoint hc hmem), Option.none_or, ihr hrest h]

/-- What is directly under a node of a branch is in the branch. -/
theorem mem_nodes_of_below {t s : Forest κ} {n q k : κ} (hnodup : t.nodes.Nodup)
    (h : t.find n = some s) (hq : q ∈ n :: s.nodes) (hk : (some q, k) ∈ t.links none) :
    k ∈ s.nodes := by
  obtain ⟨u, hu, hkeys⟩ := (mem_links_iff hnodup (by simp)).mp hk
  have hku := mem_nodes_of_mem_keys hkeys
  rcases List.mem_cons.mp hq with rfl | hq
  · rw [h] at hu
    cases hu
    exact hku
  · rw [find_trans hnodup h hq] at hu
    exact nodes_subset_of_find hu hku

/-! ## Moving and renaming branches -/

section Move

variable {t s sub : Forest κ} {n q c : κ} (hnodup : t.nodes.Nodup)
  (hn : t.find n = some s) (hc : s.get c = some sub)
include hnodup hn hc

/-- `q[c] = n[c]`, then `del n[c]`: the two steps of a move, and what is under `n[c]` in
between. -/
theorem links_move_steps (hq : q ∈ t.nodes) (hne : q ≠ n) :
    ((((some q, c) :: sub.links (some c)) ++ t.links none).Perm
      (((some n, c) :: (if c = q then sub.set c sub
          else sub.modify q (fun u => u.set c sub)).links (some c)) ++
        ((t.modify q (fun u => u.set c sub)).modify n (fun u => u.del c)).links none)) := by
  obtain ⟨u, hu⟩ := mem_nodes_iff.mp hq
  have hnc : (some n, c) ∈ t.links none :=
    (mem_links_iff hnodup (by simp)).mpr ⟨s, hn, mem_keys_iff.mpr ⟨sub, hc⟩⟩
  have hkeys : c ∉ u.keys := by
    intro hmem
    have hqc : (some q, c) ∈ t.links none := (mem_links_iff hnodup (by simp)).mpr ⟨u, hu, hmem⟩
    exact hne (Option.some.inj (links_unique hnodup hqc hnc))
  have hself := notMem_of_find hnodup hn
  have hcn : c ≠ n := fun h =>
    hself (h ▸ mem_nodes_of_mem_keys (mem_keys_iff.mpr ⟨sub, hc⟩))
  have hfind : (t.modify q (fun u => u.set c sub)).find n
      = some (s.modify q (fun u => u.set c sub)) := by
    rw [find_modify_ne hne.symm hnodup, hn, Option.map_some]
    intro u' hu'
    rw [hu] at hu'
    cases hu'
    exact find_set hkeys hcn (fun h => hself (nodes_subset_of_get hc h))
  have hget := get_modify (c := c) (q := q) (f := fun u => u.set c sub) (nodup_of_find hnodup hn)
  rw [hc, Option.map_some] at hget
  exact (links_modify_add hu (links_set hkeys sub (some q)) none).symm.trans
    (links_modify_del hfind hget none)

/-- **Moving a branch** from one node to another one. -/
theorem links_move (hq : q ∈ t.nodes) (hne : q ≠ n) (hout : q ∉ c :: sub.nodes) :
    (((t.modify q (fun u => u.set c sub)).modify n (fun u => u.del c)).links none).Perm
      (((some q, c) :: sub.links (some c)) ++ (t.modify n (fun u => u.del c)).links none) := by
  have hsteps := links_move_steps hnodup hn hc hq hne
  obtain ⟨hcq, hsub⟩ := not_or.mp (fun h => hout (List.mem_cons.mpr h))
  rw [if_neg (fun h => hcq h.symm), modify_of_notMem hsub] at hsteps
  have hdel := links_modify_del hn hc none
  rw [← List.perm_append_left_iff ((some n, c) :: sub.links (some c))]
  exact hsteps.symm.trans ((hdel.append_left _).trans (List.perm_append_comm_assoc _ _ _))

/-- A branch that is moved into itself is lost. -/
theorem links_move_lost (hlost : q = n ∨ q ∈ c :: sub.nodes) :
    (((t.modify q (fun u => u.set c sub)).modify n (fun u => u.del c)).links none).Perm
      ((t.modify n (fun u => u.del c)).links none) := by
  have hdel := links_modify_del hn hc none
  have hsubnodes := nodup_of_get (nodup_of_find hnodup hn) hc
  have hcsub := (List.nodup_cons.mp hsubnodes).1
  rw [← List.perm_append_left_iff ((some n, c) :: sub.links (some c))]
  by_cases hqn : q = n
  · subst hqn
    have hset : s.set c sub = s := set_of_get hc
    have hfind := find_modify_self hn (fun u => u.set c sub)
    rw [hset] at hfind
    have hsame := links_modify hn (fun u => u.set c sub) none
    rw [hset, List.perm_append_right_iff] at hsame
    exact ((links_modify_del hfind hc none).symm.trans hsame).trans hdel
  have hmem := hlost.resolve_left hqn
  have hq : q ∈ t.nodes := by
    refine nodes_subset_of_find hn ?_
    rcases List.mem_cons.mp hmem with rfl | hmem
    · exact mem_nodes_of_mem_keys (mem_keys_iff.mpr ⟨sub, hc⟩)
    · exact nodes_subset_of_get hc hmem
  have hsteps := links_move_steps hnodup hn hc hq hqn
  have hsub' : ((if c = q then sub.set c sub
      else sub.modify q (fun u => u.set c sub)).links (some c)).Perm
        (((some q, c) :: sub.links (some c)) ++ sub.links (some c)) := by
    by_cases hcq : c = q
    · subst hcq
      rw [if_pos rfl]
      exact links_set (fun h => hcsub (mem_nodes_of_mem_keys h)) sub _
    · rw [if_neg hcq]
      have hmem' := (List.mem_cons.mp hmem).resolve_left (fun h => hcq h.symm)
      exact links_modify_set hmem' hcsub sub _
  have hsum := hsteps.trans ((hsub'.cons (some n, c)).append_right _)
  rw [← List.perm_append_left_iff ((some q, c) :: sub.links (some c))]
  refine List.Perm.trans ?_ ((hsum.symm.trans (hdel.append_left _)))
  rw [List.perm_iff_count]
  intro x
  simp only [List.count_append, List.count_cons]
  omega

end Move

/-- **Renaming a branch**: `q[m] = q[n]`, then `del q[n]`. -/
theorem links_rename {t u sub : Forest κ} {q n m : κ} (hq : t.find q = some u)
    (hn : u.get n = some sub) (hm : m ∉ t.nodes) (hne : n ≠ m) :
    ((t.modify q (fun s => (s.set m ((s.get n).getD empty)).del n)).links none).Perm
      (((some q, m) :: sub.links (some m)) ++ (t.modify q (fun s => s.del n)).links none) := by
  have hmkeys : m ∉ u.keys := notMem_keys_of_find hq hm
  have hget : (u.set m sub).get n = some sub := by rw [get_set_ne hne.symm, hn]
  have hold := links_modify_del hq hn none
  have hnew := links_modify hq (fun s => (s.set m ((s.get n).getD empty)).del n) none
  rw [hn, Option.getD_some] at hnew
  have hdel := links_del hget (some q)
  have hset := links_set hmkeys sub (some q)
  rw [List.perm_iff_count] at hold hnew hdel hset ⊢
  intro x
  have h1 := hold x
  have h2 := hnew x
  have h3 := hdel x
  have h4 := hset x
  simp only [List.count_append] at h1 h2 h3 h4 ⊢
  omega

/-- Renaming what is not there makes an empty entry. -/
theorem links_rename_absent {t u : Forest κ} {q n m : κ} (hq : t.find q = some u)
    (hn : n ∉ u.keys) (hm : m ∉ t.nodes) (hne : n ≠ m) :
    ((t.modify q (fun s => (s.set m ((s.get n).getD empty)).del n)).links none).Perm
      ((some q, m) :: t.links none) := by
  have hmkeys : m ∉ u.keys := notMem_keys_of_find hq hm
  have hget : u.get n = none := get_eq_none.mpr hn
  have hget' : (u.set m empty).get n = none := by rw [get_set_ne hne.symm, hget]
  refine links_modify_add (l := [(some q, m)]) hq ?_ none
  rw [hget, Option.getD_none, del_of_notMem (get_eq_none.mp hget')]
  exact links_set hmkeys empty (some q)

end Forest
