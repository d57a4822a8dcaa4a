import Mathlib.Data.List.Induction
import Mathlib.Data.List.Nodup
import SchemaGraph.Requests

/-!
# The latest request wins

Callers make requests, and later bring what was built for them. What is shown
then depends on the order of all these calls, and the only memory of it is one
number and one graph. The invariant `Recalls` says that this is enough: the
number is that of the request made last, and the graph is the one brought last
for a request that nobody had superseded by then. That requests can be told apart
at all needs fewer of them than there are numbers.

A call is judged by the requests made before it, so histories are taken apart at
their end: `Recalls.begin` and `Recalls.brings` say what one call does to the
invariant, and the history as a whole follows by induction on its calls from the
last one back.
-/

namespace SchemaGraph

/-- The graph in an outcome, if it is neither a failure nor empty. -/
def Outcome.graph? : Outcome → Option Graph
  | .ok found => found
  | .error _ => none

namespace Requests

/-- What a caller can do. An outcome may have been built at any time before it is brought. -/
inductive Call where
  | begin
  | complete (request : Request) (options : Options) (sources : List Source)
  | apply (request : Request) (outcome : Outcome)

/-- What a caller is told. -/
inductive Answer where
  | request (made : Request)
  | completion (result : Except Report Completion)

/-- The request that has been made. -/
def Answer.made? : Answer → Option Request
  | request r => some r
  | completion _ => none

/-- The request that a call is about, and the outcome that it brings. -/
def Call.brings? : Call → Option (Request × Outcome)
  | begin => none
  | complete r options sources => some (r, Graph.build options sources)
  | apply r outcome => some (r, outcome)

/-- Answers a call. -/
def step (rs : Requests) : Call → Answer × Requests
  | .begin => (.request rs.begin.1, rs.begin.2)
  | .complete r options sources =>
    let result := rs.complete r options sources
    (.completion result.1, result.2)
  | .apply r outcome =>
    let result := rs.apply r outcome
    (.completion result.1, result.2)

/-- Answers calls one after the other. -/
def run (rs : Requests) : List Call → List Answer × Requests
  | [] => ([], rs)
  | call :: calls =>
    let answer := rs.step call
    let later := answer.2.run calls
    (answer.1 :: later.1, later.2)

/-- The requests made by some calls, the first ones there are. -/
def issued (calls : List Call) : List Request := (start.run calls).1.filterMap Answer.made?

/-- What some calls leave behind, the first ones there are. -/
def state (calls : List Call) : Requests := (start.run calls).2

/-- The graph that a call brings if its request was made last before it. -/
def Call.installs? (earlier : List Call) (call : Call) : Option (Request × Graph) :=
  call.brings?.bind fun (r, outcome) =>
    if (issued earlier).getLast? = some r then outcome.graph?.map (r, ·) else none

/-- The graphs that calls bring for the request made last, each with that request. -/
def installedFrom (earlier : List Call) : List Call → List (Request × Graph)
  | [] => []
  | call :: calls => (call.installs? earlier).toList ++ installedFrom (earlier ++ [call]) calls

/-- The graphs that a history brings for the request made last, in order. -/
def installed (calls : List Call) : List (Request × Graph) := installedFrom [] calls

/-- Whether calls are about requests made before them, and no more are made than have numbers. -/
structure Admissible (calls : List Call) : Prop where
  issued : ∀ earlier call later r outcome, calls = earlier ++ call :: later →
    call.brings? = some (r, outcome) → r ∈ issued earlier
  few : (Requests.issued calls).length < UInt64.size

/--
Completes a request across other calls: whether it is superseded is asked at
`first`, its graph is built, and what comes of it is applied at `last`.
-/
def completeAcross (first last : Requests) (r : Request) (options : Options)
    (sources : List Source) : Except Report Completion × Requests :=
  if first.isLatest r then last.apply r (Graph.build options sources) else (.ok .superseded, last)

theorem run_append (rs : Requests) (calls calls' : List Call) :
    rs.run (calls ++ calls')
      = ((rs.run calls).1 ++ ((rs.run calls).2.run calls').1, ((rs.run calls).2.run calls').2) := by
  induction calls generalizing rs with
  | nil => rfl
  | cons call calls ih => simp only [List.cons_append, run, ih]

theorem state_concat (calls : List Call) (call : Call) :
    state (calls ++ [call]) = ((state calls).step call).2 := by
  rw [state, run_append]
  rfl

theorem issued_concat (calls : List Call) (call : Call) :
    issued (calls ++ [call])
      = issued calls ++ (((state calls).step call).1.made?).toList := by
  rw [issued, run_append, List.filterMap_append, issued, state]
  simp only [run, List.filterMap_cons, List.filterMap_nil]
  cases ((start.run calls).2.step call).1.made? <;> rfl

theorem installed_concat (calls : List Call) (call : Call) :
    installed (calls ++ [call]) = installed calls ++ (call.installs? calls).toList := by
  have hfrom : ∀ earlier, installedFrom earlier (calls ++ [call])
      = installedFrom earlier calls ++ (call.installs? (earlier ++ calls)).toList := by
    induction calls with
    | nil => simp [installedFrom]
    | cons first calls ih => simp [installedFrom, ih]
  exact hfrom []

/-- Requests once made stay made. -/
theorem prefix_issued (calls later : List Call) : issued calls <+: issued (calls ++ later) := by
  rw [issued, issued, run_append, List.filterMap_append]
  exact List.prefix_append _ _

theorem Admissible.initial {calls later : List Call} (h : Admissible (calls ++ later)) :
    Admissible calls := by
  refine ⟨?_, Nat.lt_of_le_of_lt (prefix_issued calls later).length_le h.few⟩
  rintro earlier call rest r outcome rfl hbrings
  exact h.issued earlier call (rest ++ later) r outcome (by simp) hbrings

theorem Admissible.concat {calls : List Call} {call : Call} (h : Admissible calls)
    (hmade : ∀ r outcome, call.brings? = some (r, outcome) → r ∈ Requests.issued calls)
    (hfew : (Requests.issued (calls ++ [call])).length < UInt64.size) :
    Admissible (calls ++ [call]) := by
  refine ⟨fun earlier c later r outcome hsplit hbrings => ?_, hfew⟩
  rcases List.eq_nil_or_concat later with rfl | ⟨init, last, rfl⟩
  · obtain ⟨rfl, hc⟩ := List.append_inj' hsplit rfl
    cases hc
    exact hmade r outcome hbrings
  · rw [List.concat_eq_append, ← List.cons_append, ← List.append_assoc] at hsplit
    exact h.issued earlier c init r outcome (List.append_inj' hsplit rfl).1 hbrings

/-! ## Bringing an outcome

For a request that is superseded it makes no difference what is brought, so a caller may
as well not build it (`complete_eq_apply`); after that a call is told by its request and
its outcome alone. The lemmas on `apply` say of each thing that a call can change or tell
what becomes of it, and nothing else is used of `apply` when histories are looked at. -/

theorem apply_superseded {rs : Requests} {r : Request} (h : rs.isLatest r = false)
    (outcome : Outcome) : rs.apply r outcome = (.ok .superseded, rs) := by
  simp [apply, h]

/-- A request that is superseded is not built, but it would come to the same. -/
theorem complete_eq_apply (rs : Requests) (r : Request) (options : Options)
    (sources : List Source) :
    rs.complete r options sources = rs.apply r (Graph.build options sources) := by
  rw [complete]
  cases hlatest : rs.isLatest r with
  | true => rfl
  | false => rw [apply_superseded hlatest]; rfl

theorem step_brings {call : Call} {r : Request} {outcome : Outcome}
    (h : call.brings? = some (r, outcome)) (rs : Requests) :
    rs.step call = (.completion (rs.apply r outcome).1, (rs.apply r outcome).2) := by
  cases call with
  | begin => cases h
  | complete => cases h; simp only [step, complete_eq_apply]
  | apply => cases h; rfl

/-- Only a graph is shown; with anything else what was shown before stays. -/
theorem apply_shown (rs : Requests) (r : Request) (outcome : Outcome) :
    (rs.apply r outcome).2.shown =
      if rs.isLatest r then outcome.graph?.or rs.shown else rs.shown := by
  unfold apply
  cases rs.isLatest r with
  | false => rcases outcome with report | _ | g <;> rfl
  | true => rcases outcome with report | _ | g <;> rfl

theorem apply_made (rs : Requests) (r : Request) (outcome : Outcome) :
    (rs.apply r outcome).2.made = rs.made := by
  unfold apply
  split
  · split <;> rfl
  · rfl

/-- Superseded is what a request is told exactly if it is not the latest. -/
theorem apply_answer (rs : Requests) (r : Request) (outcome : Outcome) :
    ((rs.apply r outcome).1 = .ok .superseded ↔ rs.isLatest r = false)
      ∧ (rs.isLatest r = true →
        ∀ report, (rs.apply r outcome).1 = .error report ↔ outcome = .error report) := by
  cases hlatest : rs.isLatest r with
  | false => simp [apply_superseded hlatest]
  | true => rcases outcome with report | _ | g <;> simp [apply, hlatest]

/--
What some calls leave behind: requests are numbered from one on, the number is
that of the last, and the graph is that of the last outcome that counted.
-/
structure Recalls (calls : List Call) : Prop where
  numbers : (issued calls).map (·.number.toNat) = List.range' 1 (issued calls).length
  made : (state calls).made.toNat = (issued calls).length
  shown : (state calls).shown = (installed calls).getLast?.map Prod.snd
  brought : ∀ entry ∈ installed calls, entry.1 ∈ issued calls
  ordered : (installed calls).Pairwise fun a b => a.1.number ≤ b.1.number

theorem Recalls.nil : Recalls [] := ⟨rfl, rfl, rfl, by simp [installed, installedFrom], .nil⟩

theorem Request.number_inj {r r' : Request} : r.number.toNat = r'.number.toNat ↔ r = r' := by
  rw [UInt64.toNat_inj]
  refine ⟨fun h => ?_, fun h => h ▸ rfl⟩
  cases r
  cases r'
  exact congrArg Request.mk h

namespace Recalls

variable {calls : List Call} (h : Recalls calls)

include h

theorem number_last {r : Request} (hr : (issued calls).getLast? = some r) :
    r.number.toNat = (issued calls).length := by
  have hnonempty : issued calls ≠ [] := by
    intro hnil
    rw [hnil] at hr
    cases hr
  have hlast := congrArg List.getLast? h.numbers
  rw [List.getLast?_map, hr, List.getLast?_range', if_neg (by simpa using hnonempty)] at hlast
  simp only [Option.map_some, Option.some.injEq] at hlast
  omega

theorem isLatest_iff {r : Request} (hr : r ∈ issued calls) :
    (state calls).isLatest r = true ↔ (issued calls).getLast? = some r := by
  obtain ⟨last, hlast⟩ : ∃ last, (issued calls).getLast? = some last :=
    ⟨_, List.getLast?_eq_some_getLast (List.ne_nil_of_mem hr)⟩
  rw [isLatest, beq_iff_eq, ← UInt64.toNat_inj, h.made, ← h.number_last hlast, hlast,
    Request.number_inj, Option.some.injEq]

theorem number_le {r : Request} (hr : r ∈ issued calls) :
    r.number.toNat ≤ (issued calls).length := by
  have hmem := List.mem_map_of_mem (f := fun r : Request => r.number.toNat) hr
  rw [h.numbers, List.mem_range'_1] at hmem
  omega

/-- A request takes the next number, as long as there is one. -/
theorem begin (hfew : (issued (calls ++ [.begin])).length < UInt64.size) :
    Recalls (calls ++ [.begin]) := by
  have hissued : issued (calls ++ [.begin]) = issued calls ++ [⟨(state calls).made + 1⟩] :=
    issued_concat calls .begin
  have hinstalled : installed (calls ++ [.begin]) = installed calls :=
    (installed_concat calls .begin).trans (List.append_nil _)
  rw [hissued, List.length_append, List.length_singleton] at hfew
  have hmade : ((state calls).made + 1).toNat = (issued calls).length + 1 := by
    rw [UInt64.toNat_add, h.made]
    exact Nat.mod_eq_of_lt hfew
  refine ⟨?_, ?_, ?_, ?_, ?_⟩
  · rw [hissued, List.map_append, h.numbers, List.length_append, List.length_singleton,
      List.range'_1_concat]
    simp [hmade, Nat.add_comm]
  · rw [state_concat, hissued, List.length_append, List.length_singleton]
    exact hmade
  · rw [state_concat, hinstalled]
    exact h.shown
  · intro entry hentry
    rw [hinstalled] at hentry
    rw [hissued]
    exact List.mem_append_left _ (h.brought entry hentry)
  · rw [hinstalled]
    exact h.ordered

/-- An outcome for the latest request is remembered if it holds a graph; no other is. -/
theorem brings {call : Call} {r : Request} {outcome : Outcome}
    (hbrings : call.brings? = some (r, outcome)) (hr : r ∈ issued calls) :
    Recalls (calls ++ [call]) := by
  have hissued : issued (calls ++ [call]) = issued calls := by
    rw [issued_concat, step_brings hbrings]
    exact List.append_nil _
  have hinstalls : call.installs? calls
      = if (issued calls).getLast? = some r then outcome.graph?.map (r, ·) else none := by
    rw [Call.installs?, hbrings]
    rfl
  have hinstalled :
      ∀ entry ∈ (call.installs? calls).toList, (issued calls).getLast? = some entry.1 := by
    intro entry hentry
    rw [hinstalls] at hentry
    split at hentry
    · next hlast =>
        obtain ⟨g, -, rfl⟩ := Option.map_eq_some_iff.1 (Option.mem_toList.1 hentry)
        exact hlast
    · simp at hentry
  refine ⟨hissued ▸ h.numbers, ?_, ?_, ?_, ?_⟩
  · rw [state_concat, step_brings hbrings, hissued, apply_made]
    exact h.made
  · rw [state_concat, step_brings hbrings, apply_shown, installed_concat, hinstalls, h.shown,
      List.getLast?_append]
    simp only [h.isLatest_iff hr]
    split
    · cases outcome.graph? <;> rfl
    · rfl
  · intro entry hentry
    rw [hissued]
    rw [installed_concat] at hentry
    rcases List.mem_append.1 hentry with hentry | hentry
    · exact h.brought entry hentry
    · exact List.mem_of_getLast? (hinstalled entry hentry)
  · rw [installed_concat, List.pairwise_append]
    refine ⟨h.ordered, ?_, fun a ha b hb => ?_⟩
    · cases call.installs? calls <;> simp
    · rw [UInt64.le_iff_toNat_le, h.number_last (hinstalled b hb)]
      exact h.number_le (h.brought a ha)

end Recalls

/-- Whatever is called, as long as requests have numbers, the state recalls all that counts. -/
theorem Admissible.recalls {calls : List Call} (h : Admissible calls) : Recalls calls := by
  induction calls using List.reverseRecOn with
  | nil => exact .nil
  | append_singleton calls call ih =>
      have hcalls := ih h.initial
      cases hbrings : call.brings? with
      | none =>
          cases call with
          | begin => exact hcalls.begin h.few
          | complete | apply => cases hbrings
      | some about =>
          exact hcalls.brings hbrings (h.issued calls call [] about.1 about.2 rfl hbrings)

theorem issued_nodup {calls : List Call} (h : Recalls calls) : (issued calls).Nodup := by
  have hnodup : ((issued calls).map (·.number.toNat)).Nodup := by
    rw [h.numbers]
    exact List.nodup_range'
  exact hnodup.of_map

/-- A request that is superseded stays so, whatever is called later. -/
theorem superseded_later {before since : List Call} (h : Recalls (before ++ since)) {r : Request}
    (hr : r ∈ issued before) (hlast : (issued before).getLast? ≠ some r) :
    (issued (before ++ since)).getLast? ≠ some r := by
  have hnodup := issued_nodup h
  obtain ⟨more, hmore⟩ := prefix_issued before since
  rw [← hmore] at hnodup ⊢
  intro hr'
  rw [List.getLast?_append] at hr'
  cases hmine : more.getLast? with
  | none =>
      rw [hmine] at hr'
      exact hlast hr'
  | some last =>
      rw [hmine] at hr'
      cases hr'
      exact (List.nodup_append.1 hnodup).2.2 r hr r (List.mem_of_getLast? hmine) rfl

theorem superseded_by_begin {before since : List Call}
    (h : Admissible (before ++ .begin :: since)) {r : Request} (hr : r ∈ issued before) :
    (issued (before ++ .begin :: since)).getLast? ≠ some r := by
  rw [List.append_cons] at h ⊢
  have hissued : issued (before ++ [.begin]) = issued before ++ [⟨(state before).made + 1⟩] :=
    issued_concat before .begin
  have hnodup := issued_nodup h.initial.recalls
  rw [hissued] at hnodup
  refine superseded_later h.recalls (hissued ▸ List.mem_append_left _ hr) ?_
  rw [hissued, List.getLast?_concat, Ne, Option.some.injEq]
  exact fun hsame => (List.nodup_append.1 hnodup).2.2 r hr r (by simp [hsame]) rfl

/--
Whatever is called, in whatever order, the latest request wins. A request that is
not the latest is told so and changes nothing, and the latest fails exactly if
what was built for it failed. What is shown is the graph brought last for a
request that was the latest by then, and nothing only if there is none. So
failures and empty outcomes change nothing either; graphs are shown in the order
of their requests; and once a new request is made, no outcome for one before it
counts any more. It makes no difference whether a request is completed or built
elsewhere and applied, nor what is called while it is being built.
-/
theorem latest_request_wins {calls : List Call} (h : Admissible calls) :
    (∀ earlier call later r outcome, calls = earlier ++ call :: later →
        call.brings? = some (r, outcome) →
        ∃ result after, (state earlier).step call = (.completion result, after)
          ∧ (result = .ok .superseded ↔ (issued earlier).getLast? ≠ some r)
          ∧ ((issued earlier).getLast? ≠ some r → after = state earlier)
          ∧ ((issued earlier).getLast? = some r →
              ∀ report, result = .error report ↔ outcome = .error report)
          ∧ (outcome.graph? = none → after.shown = (state earlier).shown)
          ∧ ∀ before since, earlier = before ++ .begin :: since → r ∈ issued before →
              result = .ok .superseded ∧ after = state earlier)
      ∧ (state calls).shown = (installed calls).getLast?.map Prod.snd
      ∧ ((state calls).shown = none ↔ installed calls = [])
      ∧ ((installed calls).Pairwise fun a b => a.1.number ≤ b.1.number)
      ∧ (∀ rs r options sources, complete rs r options sources
          = apply rs r (Graph.build options sources))
      ∧ ∀ before since r options sources, calls = before ++ since → r ∈ issued before →
          completeAcross (state before) (state calls) r options sources
            = (state calls).apply r (Graph.build options sources) := by
  have hrecalls := h.recalls
  refine ⟨?_, hrecalls.shown, ?_, hrecalls.ordered, complete_eq_apply, ?_⟩
  · rintro earlier call later r outcome rfl hbrings
    have hearlier := h.initial
    have hlatest :=
      hearlier.recalls.isLatest_iff (h.issued earlier call later r outcome rfl hbrings)
    obtain ⟨hsuperseded, hfailed⟩ := apply_answer (state earlier) r outcome
    have hunchanged : (issued earlier).getLast? ≠ some r →
        (state earlier).apply r outcome = (.ok .superseded, state earlier) := fun hlast =>
      apply_superseded (by rwa [← Bool.not_eq_true, hlatest]) outcome
    refine ⟨_, _, step_brings hbrings _, ?_, ?_, ?_, ?_, ?_⟩
    · rw [hsuperseded, ← Bool.not_eq_true, hlatest]
    · exact fun hlast => congrArg Prod.snd (hunchanged hlast)
    · exact fun hlast => hfailed (hlatest.2 hlast)
    · intro hnone
      rw [apply_shown, hnone]
      simp
    · rintro before since rfl hr
      rw [hunchanged (superseded_by_begin hearlier hr)]
      exact ⟨rfl, rfl⟩
  · rw [hrecalls.shown]
    simp
  · rintro before since r options sources rfl hr
    rw [completeAcross]
    split
    · rfl
    · next hfirst =>
        have hlast := superseded_later hrecalls hr
          (mt (h.initial.recalls.isLatest_iff hr).2 hfirst)
        have hissued := (prefix_issued before since).subset hr
        rw [apply_superseded]
        rwa [← Bool.not_eq_true, hrecalls.isLatest_iff hissued]

/-- The graph that is built for the second of three requests. -/
def secondGraph : Graph := { (default : Graph) with query := ⟨"Second"⟩ }

/-- Outcomes in another order than the requests, and a failure for the third one. -/
def contestedCalls : List Call :=
  [.begin, .begin, .apply ⟨2⟩ (.ok (some secondGraph)), .apply ⟨1⟩ (.ok (some default)), .begin,
    .apply ⟨3⟩ (.error default)]

theorem latest_request_wins_contested :
    Admissible contestedCalls ∧ (state contestedCalls).shown = some secondGraph
      ∧ ∃ after, (state (contestedCalls.take 5)).step (.apply ⟨3⟩ (.error default))
          = (.completion (.error default), after)
        ∧ after.shown = (state (contestedCalls.take 5)).shown := by
  have hnil : Admissible [] := ⟨by simp, by decide⟩
  have hnone : ∀ {calls : List Call} (r : Request) (outcome : Outcome),
      Call.begin.brings? = some (r, outcome) → r ∈ issued calls := by
    intro calls r outcome h
    cases h
  have htwo : Admissible (contestedCalls.take 2) :=
    (hnil.concat hnone (by decide)).concat hnone (by decide)
  have hfour : Admissible (contestedCalls.take 4) :=
    (htwo.concat (by rintro _ _ ⟨⟩; decide) (by decide)).concat (by rintro _ _ ⟨⟩; decide)
      (by decide)
  have hall : Admissible contestedCalls :=
    (hfour.concat hnone (by decide)).concat (by rintro _ _ ⟨⟩; decide) (by decide)
  obtain ⟨heach, hshown, -⟩ := latest_request_wins hall
  refine ⟨hall, hshown, ?_⟩
  obtain ⟨result, after, hstep, -, -, hfailed, hkept, -⟩ :=
    heach (contestedCalls.take 5) (.apply ⟨3⟩ (.error default)) [] ⟨3⟩ (.error default) rfl rfl
  have hresult := (hfailed rfl default).2 rfl
  exact ⟨after, hresult ▸ hstep, hkept rfl⟩

end Requests

end SchemaGraph
