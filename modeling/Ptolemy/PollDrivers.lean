/-
# The drivers of a poll

A job comes with a driver, or with several that are tried one after the other.  `poll`
hands on the messages of the first one whose `fetch` succeeds.  A name that cannot be
resolved ends it; any other failure, and a timeout that is not that of the last driver,
leads to the next driver.

The messages are made inside the same `try` block as the fetch.  When one of them cannot
be made, the driver stands in the data of the job already, which are the options of every
further `fetch`: it is given two drivers and raises before it begins.
-/
import Ptolemy.Poll

namespace Poll

open Driver (Record)

/-! ## One driver after the other -/

/-- How `fetch` fails. -/
inductive PollExn : Type where
  | timedOut
  | nameResolution
  | other (e : Exn)
  deriving DecidableEq

/-- A driver of the list: the time when its turn comes, and what `fetch` does with it. -/
structure Attempt : Type where
  driver : String
  t : Int
  outcome : Except PollExn Fetched

/-- What a poll does: the drivers that are fetched with, those reported as successful, the messages
that are yielded, and the exception at the end. -/
structure Polled : Type where
  tried : List String := []
  success : List String := []
  messages : List Message := []
  raised : Option PollExn := none

/-- What comes after a driver has failed. -/
def Polled.after (out : Polled) (d : String) : Polled := { out with tried := d :: out.tried }

def noSuitableDriver : PollExn := .other (.exception "no suitable driver found")

/-- `poll`, for the drivers that the job has. -/
def poll (job : Job) (o : IterOrder) : List Attempt → Polled
  | [] => { raised := some noSuitableDriver }
  | a :: as => match a.outcome with
    | .error .timedOut =>
      if as.isEmpty then { tried := [a.driver], raised := some .timedOut }
      else (poll job o as).after a.driver
    | .error .nameResolution => { tried := [a.driver], raised := some .nameResolution }
    | .error (.other _) => (poll job o as).after a.driver
    | .ok f => match messages job a.t f (o.order f.res.items) with
      | (ms, none) => { tried := [a.driver], success := [a.driver], messages := ms }
      | (ms, some _) =>
        -- no further driver gets past the call of `fetch`
        { tried := [a.driver], success := [a.driver], messages := ms,
          raised := some noSuitableDriver }

/-! ## What a poll ought to do -/

/-- The attempt fails, and there may be another one. -/
def Attempt.Passes (a : Attempt) : Prop :=
  a.outcome = .error .timedOut ∨ ∃ e, a.outcome = .error (.other e)

/-- A driver whose fetch succeeds is the last one, is reported, and there is a message for each group
of its result; a name that cannot be resolved ends the poll, and so does the end of the list, where
the timeout of the last driver is reported as one. -/
structure Single (job : Job) (o : IterOrder) (as : List Attempt) (out : Polled) : Prop where
  succeeds : ∀ pre a post f, as = pre ++ a :: post → (∀ b ∈ pre, b.Passes) → a.outcome = .ok f →
    out.tried = (pre ++ [a]).map Attempt.driver ∧ out.success = [a.driver] ∧ out.raised = none
      ∧ List.Forall₂ (fun p m => messageOf job a.t f p.1 p.2 = .ok m) (o.order f.res.items)
        out.messages
  unresolved : ∀ pre a post, as = pre ++ a :: post → (∀ b ∈ pre, b.Passes) →
    a.outcome = .error .nameResolution →
      out = { tried := (pre ++ [a]).map Attempt.driver, raised := some .nameResolution }
  fails : (∀ a ∈ as, a.Passes) →
    out = { tried := as.map Attempt.driver
            raised := some (if as.getLast?.any (fun a => a.outcome matches .error .timedOut)
              then .timedOut else noSuitableDriver) }

/-- The keys of a group are known: those of the group, or of what stands before the `@` in its
name. -/
def Fetched.Keyed (f : Fetched) (g : String) : Prop :=
  let thisG := if g ∈ f.keys then g else (Text.partition '@' g).1
  thisG ∈ f.keys ∧ thisG ∈ f.additionalKeys

/-- The keys of all groups are known in the result of the first driver that succeeds. -/
def FirstKeyed (as : List Attempt) : Prop :=
  ∀ pre a post f, as = pre ++ a :: post → (∀ b ∈ pre, b.Passes) → a.outcome = .ok f →
    ∀ g ∈ f.res, f.Keyed g

/-! ## The proof -/

variable {job : Job} {o : IterOrder} {t : Int} {f : Fetched}

theorem exists_messageAs_iff {g thisG : String} {data : List Record} {i : Value} :
    (∃ m, messageAs job t f g data thisG i = .ok m)
      ↔ thisG ∈ f.keys ∧ thisG ∈ f.additionalKeys := by
  rw [Dict.mem_iff_lookup, Dict.mem_iff_lookup]
  constructor
  · rintro ⟨m, hm⟩
    obtain ⟨key, additional, hkey, hadditional, -⟩ := messageAs_eq_ok.mp hm
    exact ⟨⟨key, hkey⟩, ⟨additional, hadditional⟩⟩
  · rintro ⟨⟨key, hkey⟩, ⟨additional, hadditional⟩⟩
    exact ⟨_, messageAs_eq_ok.mpr ⟨key, additional, hkey, hadditional, rfl⟩⟩

theorem exists_messageOf_iff {g : String} {data : List Record} :
    (∃ m, messageOf job t f g data = .ok m) ↔ f.Keyed g := by
  unfold messageOf Fetched.Keyed
  split_ifs
  · exact exists_messageAs_iff
  · exact exists_messageAs_iff

/-- The messages are all made just when the keys of all groups are known. -/
theorem messages_ended_iff :
    (messages job t f (o.order f.res.items)).2 = none ↔ ∀ g ∈ f.res, f.Keyed g := by
  constructor
  · intro h g hg
    obtain ⟨data, hdata⟩ := Dict.mem_iff_lookup.mp hg
    have hmem : (g, data) ∈ o.order f.res.items := o.mem_order.mpr (Dict.mem_items.mpr hdata)
    obtain ⟨m, -, hm⟩ := exists_of_forall₂ (messages_ended h).flip hmem
    exact exists_messageOf_iff.mp ⟨m, hm⟩
  · intro h
    refine messages_of_ok (fun p hp => exists_messageOf_iff.mpr (h p.1 ?_))
    exact Dict.mem_iff_lookup.mpr ⟨p.2, Dict.mem_items.mp (o.mem_order.mp hp)⟩

variable {a : Attempt} {as pre post : List Attempt}

theorem Attempt.Passes.outcome_ne_ok (h : a.Passes) : a.outcome ≠ .ok f := by
  intro heq
  rcases h with h | ⟨e, h⟩ <;> rw [heq] at h <;> cases h

theorem Attempt.Passes.outcome_ne_nameResolution (h : a.Passes) :
    a.outcome ≠ .error .nameResolution := by
  intro heq
  rcases h with h | ⟨e, h⟩ <;> rw [heq] at h <;> cases h

/-- A list of drivers has a first one that does not lead to the next, or none. -/
theorem first_stop (as : List Attempt) : (∀ a ∈ as, a.Passes)
    ∨ ∃ pre a post, as = pre ++ a :: post ∧ (∀ b ∈ pre, b.Passes) ∧ ¬ a.Passes := by
  induction as with
  | nil => exact Or.inl (fun a ha => absurd ha List.not_mem_nil)
  | cons b as ih =>
    by_cases hb : b.Passes
    · rcases ih with hall | ⟨pre, a, post, rfl, hpre, ha⟩
      · exact Or.inl (List.forall_mem_cons.mpr ⟨hb, hall⟩)
      · exact Or.inr ⟨b :: pre, a, post, rfl, List.forall_mem_cons.mpr ⟨hb, hpre⟩, ha⟩
    · exact Or.inr ⟨[], b, as, rfl, fun a ha => absurd ha List.not_mem_nil, hb⟩

/-- There is only one such driver. -/
theorem first_stop_unique {pre' post' : List Attempt} {a' : Attempt}
    (h : pre ++ a :: post = pre' ++ a' :: post') (hpre : ∀ b ∈ pre, b.Passes) (ha : ¬ a.Passes)
    (hpre' : ∀ b ∈ pre', b.Passes) (ha' : ¬ a'.Passes) : pre = pre' ∧ a = a' := by
  induction pre generalizing pre' with
  | nil =>
    cases pre' with
    | nil => exact ⟨rfl, (List.cons.inj h).1⟩
    | cons b' pre' => exact absurd (hpre' b' List.mem_cons_self) ((List.cons.inj h).1 ▸ ha)
  | cons b pre ih =>
    cases pre' with
    | nil => exact absurd (hpre b List.mem_cons_self) ((List.cons.inj h).1 ▸ ha')
    | cons b' pre' =>
      obtain ⟨rfl, hrest⟩ := List.cons.inj h
      obtain ⟨rfl, rfl⟩ := ih hrest (fun c hc => hpre c (List.mem_cons_of_mem b hc))
        (fun c hc => hpre' c (List.mem_cons_of_mem b hc))
      exact ⟨rfl, rfl⟩

/-- The drivers before are tried, and nothing else comes of them. -/
theorem poll_append (hpre : ∀ b ∈ pre, b.Passes) (a : Attempt) (post : List Attempt) :
    poll job o (pre ++ a :: post) = { poll job o (a :: post) with
      tried := pre.map Attempt.driver ++ (poll job o (a :: post)).tried } := by
  induction pre with
  | nil => rfl
  | cons b pre ih =>
    have hrest := ih (fun c hc => hpre c (List.mem_cons_of_mem b hc))
    have hone : poll job o (b :: (pre ++ a :: post))
        = (poll job o (pre ++ a :: post)).after b.driver := by
      rcases hpre b List.mem_cons_self with hb | ⟨e, hb⟩
      · rw [poll, hb]
        simp
      · rw [poll, hb]
    rw [List.cons_append, hone, hrest]
    rfl

/-- All drivers fail. -/
theorem poll_of_passes (h : ∀ a ∈ as, a.Passes) :
    poll job o as = { tried := as.map Attempt.driver
                      raised := some (if as.getLast?.any
                          (fun a => a.outcome matches .error .timedOut)
                        then .timedOut else noSuitableDriver) } := by
  induction as with
  | nil => rfl
  | cons a as ih =>
    have hrest := ih (fun b hb => h b (List.mem_cons_of_mem a hb))
    cases as with
    | nil =>
      rcases h a List.mem_cons_self with ha | ⟨e, ha⟩
      · simp [poll, ha]
      · simp [poll, ha, Polled.after]
    | cons b as =>
      have hone : poll job o (a :: b :: as) = (poll job o (b :: as)).after a.driver := by
        rcases h a List.mem_cons_self with ha | ⟨e, ha⟩
        · rw [poll, ha]
          simp
        · rw [poll, ha]
      rw [hone, hrest, List.getLast?_cons_cons]
      rfl

/-- The first driver succeeds. -/
theorem poll_of_ok (ha : a.outcome = .ok f) :
    poll job o (a :: post) = {
      tried := [a.driver], success := [a.driver]
      messages := (messages job a.t f (o.order f.res.items)).1
      raised := (messages job a.t f (o.order f.res.items)).2.map (fun _ => noSuitableDriver) } := by
  rw [poll, ha]
  simp only
  cases messages job a.t f (o.order f.res.items) with
  | mk ms e => cases e <;> rfl

variable (job o as) in
/-- **A single driver**: whatever the drivers of a list do, `poll` hands on one message for each group
of the first result and nothing else, and raises just when there is no result, if and only if the
keys of all groups of that result are known. -/
theorem single_iff_keyed : Single job o as (poll job o as) ↔ FirstKeyed as := by
  rcases first_stop as with hall | ⟨pre, a, post, rfl, hpre, ha⟩
  · have hno : ∀ pre a post, as = pre ++ a :: post → a.Passes :=
      fun pre a post has => hall a (has ▸ List.mem_append_right pre List.mem_cons_self)
    refine iff_of_true ⟨fun pre a post f has _ hok => ?_, fun pre a post has _ hname => ?_,
      fun _ => poll_of_passes hall⟩ (fun pre a post f has _ hok => ?_)
    · exact absurd hok (hno pre a post has).outcome_ne_ok
    · exact absurd hname (hno pre a post has).outcome_ne_nameResolution
    · exact absurd hok (hno pre a post has).outcome_ne_ok
  · have hnotall : ¬ ∀ b ∈ pre ++ a :: post, b.Passes :=
      fun hall => ha (hall a (List.mem_append_right pre List.mem_cons_self))
    cases hout : a.outcome with
    | error e =>
      -- the only failure that leads no further is a name that cannot be resolved
      have hname : a.outcome = .error .nameResolution := by
        cases e with
        | timedOut => exact absurd (Or.inl hout) ha
        | nameResolution => exact hout
        | other e => exact absurd (Or.inr ⟨e, hout⟩) ha
      have hstop : ∀ pre' a' post' f, pre ++ a :: post = pre' ++ a' :: post' →
          (∀ b ∈ pre', b.Passes) → a'.outcome ≠ .ok f := by
        intro pre' a' post' f has hpre' hok
        obtain ⟨-, rfl⟩ := first_stop_unique has hpre ha hpre' (fun h => h.outcome_ne_ok hok)
        rw [hname] at hok
        cases hok
      refine iff_of_true ⟨fun pre' a' post' f has hpre' hok => ?_, fun pre' a' post' has hpre' h' => ?_,
        fun hall => absurd hall hnotall⟩ (fun pre' a' post' f has hpre' hok => ?_)
      · exact absurd hok (hstop pre' a' post' f has hpre')
      · obtain ⟨rfl, rfl⟩ := first_stop_unique has hpre ha hpre'
          (fun h => h.outcome_ne_nameResolution h')
        rw [poll_append hpre, poll, hname]
        simp
      · exact absurd hok (hstop pre' a' post' f has hpre')
    | ok f =>
      have hpoll : poll job o (pre ++ a :: post) = {
          tried := pre.map Attempt.driver ++ [a.driver], success := [a.driver]
          messages := (messages job a.t f (o.order f.res.items)).1
          raised := (messages job a.t f (o.order f.res.items)).2.map
            (fun _ => noSuitableDriver) } := by
        rw [poll_append hpre, poll_of_ok hout]
      have hunique : ∀ pre' a' post' f', pre ++ a :: post = pre' ++ a' :: post' →
          (∀ b ∈ pre', b.Passes) → a'.outcome = .ok f' → pre = pre' ∧ a = a' ∧ f = f' := by
        intro pre' a' post' f' has hpre' hok
        obtain ⟨rfl, rfl⟩ := first_stop_unique has hpre ha hpre' (fun h => h.outcome_ne_ok hok)
        rw [hout] at hok
        exact ⟨rfl, rfl, Except.ok.inj hok⟩
      constructor
      · intro h pre' a' post' f' has hpre' hok
        obtain ⟨-, -, rfl⟩ := hunique pre' a' post' f' has hpre' hok
        obtain ⟨-, -, hraised, -⟩ := h.succeeds pre a post f rfl hpre hout
        rw [hpoll] at hraised
        exact messages_ended_iff.mp (Option.map_eq_none_iff.mp hraised)
      · intro h
        have hended : (messages job a.t f (o.order f.res.items)).2 = none :=
          messages_ended_iff.mpr (h pre a post f rfl hpre hout)
        refine ⟨fun pre' a' post' f' has hpre' hok => ?_, fun pre' a' post' has hpre' h' => ?_,
          fun hall => absurd hall hnotall⟩
        · obtain ⟨rfl, rfl, rfl⟩ := hunique pre' a' post' f' has hpre' hok
          rw [hpoll, hended]
          refine ⟨?_, rfl, rfl, messages_ended hended⟩
          rw [List.map_append]
          rfl
        · obtain ⟨-, rfl⟩ := first_stop_unique has hpre ha hpre'
            (fun h => h.outcome_ne_nameResolution h')
          rw [hout] at h'
          cases h'

/-! ### A group without keys -/

/-- The stations of a switch in groups by their vlan, where a driver that polls vlan by vlan has
them without their addresses. -/
def vlanDriver : PollDriver :=
  { neighbourDriver (some [.post_new_group_from_field (some "vlan")]) with
    posts := {
      (neighbourDriver (some [.post_new_group_from_field (some "vlan")])).posts with
      iterativeGroups := Dict.ofList [("neighbour", { keyName := "mac_address", removeKey := true })] } }

/-- The fetch succeeds, and the poll raises all the same. -/
theorem not_single_neighbours : ∃ f,
    fetch Driver.sampleEnv vlanDriver .stored neighbourWorld neighbours = .ok f
      ∧ ¬ Single neighbourJob .stored [⟨"dot1qTpFdb.yaml", 0, .ok f⟩]
        (poll neighbourJob .stored [⟨"dot1qTpFdb.yaml", 0, .ok f⟩]) := by
  have hkeys : (fetch Driver.sampleEnv vlanDriver .stored neighbourWorld neighbours).toOption.map
      (fun f => (decide ("neighbour@vlan=12" ∈ f.res), decide ("neighbour@vlan=12" ∈ f.keys),
        decide ("neighbour@vlan=12" ∈ f.additionalKeys))) = some (true, true, false) := by
    decide
  cases h : fetch Driver.sampleEnv vlanDriver .stored neighbourWorld neighbours with
  | error e =>
    rw [h] at hkeys
    cases hkeys
  | ok f =>
    rw [h] at hkeys
    obtain ⟨hres, hkey, hadditional⟩ : "neighbour@vlan=12" ∈ f.res ∧ "neighbour@vlan=12" ∈ f.keys
        ∧ "neighbour@vlan=12" ∉ f.additionalKeys := by
      simpa [Except.toOption] using hkeys
    refine ⟨f, rfl, fun hsingle => ?_⟩
    have hkeyed := (single_iff_keyed _ _ _).mp hsingle [] _ [] f rfl
      (fun b hb => absurd hb List.not_mem_nil) rfl "neighbour@vlan=12" hres
    unfold Fetched.Keyed at hkeyed
    simp only [if_pos hkey] at hkeyed
    exact hadditional hkeyed.2

end Poll
