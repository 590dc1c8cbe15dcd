/-
# Topic exchanges

A topic exchange compares the words of a key with the patterns of a binding: a word matches
itself, `one` matches any word, and `many` any number of words.  What a binding accepts is a
language, the product of those of its patterns, and `accepts` decides it.
-/
import Mathlib

namespace TopicExchange

variable {α : Type*}

/-- A place of a binding. -/
inductive Pattern (α : Type*) : Type _ where
  | word (w : α)
  | one
  | many
  deriving DecidableEq

/-- The lists of words that a place stands for. -/
def Pattern.language : Pattern α → Language α
  | .word w => {[w]}
  | .one => {l | l.length = 1}
  | .many => Set.univ

/-- The keys that a binding stands for. -/
def language (ps : List (Pattern α)) : Language α := (ps.map Pattern.language).prod

theorem language_append (ps qs : List (Pattern α)) :
    language (ps ++ qs) = language ps * language qs := by
  rw [language, List.map_append, List.prod_append, language, language]

theorem language_cons (p : Pattern α) (ps : List (Pattern α)) :
    language (p :: ps) = p.language * language ps := by
  rw [language, List.map_cons, List.prod_cons, language]

theorem mem_language_many (ps : List (Pattern α)) (ws : List α) :
    ws ∈ language (.many :: ps) ↔ ∃ t, t <:+ ws ∧ t ∈ language ps := by
  rw [language_cons, Language.mem_mul]
  constructor
  · rintro ⟨s, -, t, ht, rfl⟩
    exact ⟨t, List.suffix_append s t, ht⟩
  · rintro ⟨t, ⟨s, rfl⟩, ht⟩
    exact ⟨s, Set.mem_univ s, t, ht, rfl⟩

theorem mem_language_one (ps : List (Pattern α)) (ws : List α) :
    ws ∈ language (.one :: ps) ↔ ∃ w t, ws = w :: t ∧ t ∈ language ps := by
  rw [language_cons, Language.mem_mul]
  constructor
  · rintro ⟨s, hs, t, ht, rfl⟩
    obtain ⟨w, rfl⟩ := List.length_eq_one_iff.mp hs
    exact ⟨w, t, rfl, ht⟩
  · rintro ⟨w, t, rfl, ht⟩
    exact ⟨[w], rfl, t, ht, rfl⟩

theorem mem_language_word (w : α) (ps : List (Pattern α)) (ws : List α) :
    ws ∈ language (.word w :: ps) ↔ ∃ t, ws = w :: t ∧ t ∈ language ps := by
  rw [language_cons, Language.mem_mul]
  constructor
  · rintro ⟨s, hs, t, ht, rfl⟩
    obtain rfl : s = [w] := hs
    exact ⟨t, rfl, ht⟩
  · rintro ⟨t, rfl, ht⟩
    exact ⟨[w], rfl, t, ht, rfl⟩

/-! ## The comparison -/

variable [DecidableEq α]

/-- Whether the words of a key match the patterns of a binding. -/
def accepts : List (Pattern α) → List α → Bool
  | [], ws => ws.isEmpty
  | .many :: ps, ws => ws.tails.any (accepts ps)
  | .one :: ps, ws => match ws with
    | [] => false
    | _ :: ws => accepts ps ws
  | .word w :: ps, ws => match ws with
    | [] => false
    | w' :: ws => w = w' && accepts ps ws

theorem accepts_iff_mem_language (ps : List (Pattern α)) (ws : List α) :
    accepts ps ws = true ↔ ws ∈ language ps := by
  induction ps generalizing ws with
  | nil => exact List.isEmpty_iff.trans (Language.mem_one ws).symm
  | cons p ps ih =>
    cases p with
    | word w =>
      rw [mem_language_word]
      cases ws with
      | nil => simp [accepts]
      | cons w' ws =>
        rw [accepts, Bool.and_eq_true_iff, decide_eq_true_iff, ih]
        constructor
        · rintro ⟨rfl, hws⟩
          exact ⟨ws, rfl, hws⟩
        · rintro ⟨t, heq, ht⟩
          cases heq
          exact ⟨rfl, ht⟩
    | one =>
      rw [mem_language_one]
      cases ws with
      | nil => simp [accepts]
      | cons w ws =>
        rw [accepts, ih]
        constructor
        · exact fun h => ⟨w, ws, rfl, h⟩
        · rintro ⟨w', t, heq, ht⟩
          cases heq
          exact ht
    | many =>
      rw [mem_language_many, accepts, List.any_eq_true]
      exact exists_congr (fun t => and_congr (List.mem_tails t ws) (ih t))

/-- Two bindings one after the other accept the keys of the one followed by those of the other. -/
theorem accepts_append (ps qs : List (Pattern α)) (ws : List α) :
    accepts (ps ++ qs) ws = true ↔
      ∃ us vs, us ++ vs = ws ∧ accepts ps us = true ∧ accepts qs vs = true := by
  simp only [accepts_iff_mem_language, language_append, Language.mem_mul]
  constructor
  · rintro ⟨us, hus, vs, hvs, h⟩
    exact ⟨us, vs, h, hus, hvs⟩
  · rintro ⟨us, vs, h, hus, hvs⟩
    exact ⟨us, hus, vs, hvs, h⟩

theorem accepts_words (us ws : List α) : accepts (us.map Pattern.word) ws = true ↔ us = ws := by
  induction us generalizing ws with
  | nil => exact List.isEmpty_iff.trans eq_comm
  | cons u us ih =>
    rw [accepts_iff_mem_language, List.map_cons, mem_language_word]
    simp only [← accepts_iff_mem_language, ih]
    constructor
    · rintro ⟨t, rfl, rfl⟩
      rfl
    · rintro rfl
      exact ⟨us, rfl, rfl⟩

/-- With any number of words before and after, a binding accepts the keys with a part that it
accepts. -/
theorem accepts_around (ps : List (Pattern α)) (ws : List α) :
    accepts (.many :: ps ++ [.many]) ws = true ↔ ∃ t, t <:+: ws ∧ accepts ps t = true := by
  rw [List.cons_append, accepts_iff_mem_language, mem_language_many]
  simp only [← accepts_iff_mem_language, accepts_append]
  constructor
  · rintro ⟨-, hsuffix, us, vs, rfl, hus, -⟩
    exact ⟨us, (List.prefix_append us vs).isInfix.trans hsuffix.isInfix, hus⟩
  · rintro ⟨t, ⟨s, r, rfl⟩, ht⟩
    refine ⟨t ++ r, ⟨s, (List.append_assoc s t r).symm⟩, t, r, rfl, ht, ?_⟩
    rw [accepts_iff_mem_language, mem_language_many]
    exact ⟨[], List.nil_suffix, rfl⟩

theorem accepts_around_words (us ws : List α) :
    accepts (.many :: us.map Pattern.word ++ [.many]) ws = true ↔ us <:+: ws := by
  rw [accepts_around]
  simp only [accepts_words]
  constructor
  · rintro ⟨t, ht, rfl⟩
    exact ht
  · exact fun h => ⟨us, h, rfl⟩

/-- Where each word is read as a pattern that it matches, a list of words accepts itself. -/
theorem accepts_map {read : α → Pattern α} (hread : ∀ w, [w] ∈ (read w).language) (ws : List α) :
    accepts (ws.map read) ws = true := by
  induction ws with
  | nil => rfl
  | cons w ws ih =>
    rw [List.map_cons, accepts_iff_mem_language, language_cons, Language.mem_mul]
    exact ⟨[w], hread w, ws, (accepts_iff_mem_language _ _).mp ih, rfl⟩

end TopicExchange
