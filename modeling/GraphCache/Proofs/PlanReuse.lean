import GraphCache.Proofs.WriteThenQuery

/-!
# Plans that are used again

A client plans a query under one text, in which the name of the operation follows the query. A
character stands between the two, but it may also occur in either of them. So one request can be
taken for another one: when the query of the other one goes on where its own query ends, and the
name of its operation makes up for what is missing. As long as this does not happen, the plans that
are used again do not show in the results.

## Main definitions

* `PlanRequest`: a query and the name of the operation to be planned.
* `PlanRequest.Imitates`: how two requests come to be kept under one key.
* `Client.After`: the clients that have planned given requests.

## Main results

* `PlanRequest.key_eq_iff`: two requests have one key only if one of them imitates the other one.
* `Client.After.keepsOnly`: each plan that is kept was built for one of the earlier requests.
* `Client.plan_eq_buildPlan`: plans that are used again do not show in the results.
* `Client.plan_of_imitation`: they may show if a request imitates an earlier one.
-/

namespace GraphCache

variable {World : Type}

/-- A query and the name of the operation to be planned. -/
structure PlanRequest where
  /-- The text of the query. -/
  text : String
  /-- The name of the operation. -/
  operationName : Option String
  deriving DecidableEq

namespace PlanRequest

variable {request other : PlanRequest}

/-- What the plan of a request is kept under. -/
def key (request : PlanRequest) : PlanKey :=
  PlanKey.ofQuery request.text request.operationName

/-- What follows the query in the key. -/
def ending (request : PlanRequest) : String :=
  match request.operationName with
  | some name => "\x01" ++ name
  | none => "\x00"

/-- The query of the other request goes on where the own one ends, and the name of the operation
consists of what stands there and of what follows the other query in its key. -/
def Imitates (request other : PlanRequest) : Prop :=
  ∃ part : String, other.text = request.text ++ "\x01" ++ part ∧
    request.operationName = some (part ++ other.ending)

theorem key_eq (request : PlanRequest) : request.key = ⟨request.text ++ request.ending⟩ := by
  obtain ⟨text, operationName⟩ := request
  cases operationName with
  | none => rfl
  | some name => simp only [key, PlanKey.ofQuery, ending, String.append_assoc]

/-- What follows the query tells the name of the operation. -/
theorem operationName_eq_of_ending (h : request.ending = other.ending) :
    request.operationName = other.operationName := by
  obtain ⟨text, operationName⟩ := request
  obtain ⟨otherText, otherName⟩ := other
  rw [← String.toList_inj] at h
  cases operationName with
  | none =>
    cases otherName with
    | none => rfl
    | some otherName => simp [ending] at h
  | some name =>
    cases otherName with
    | none => simp [ending] at h
    | some otherName =>
      have hname : name.toList = otherName.toList := by simpa [ending] using h
      exact congrArg some (String.toList_inj.1 hname)

/-- If a query goes on where the one of a request ends, or ends there as well, and both have one
key, then they are the same or the request imitates the other one. -/
theorem eq_or_imitates_of_append {part : List Char}
    (htext : other.text.toList = request.text.toList ++ part)
    (hending : request.ending.toList = part ++ other.ending.toList) :
    request = other ∨ request.Imitates other := by
  cases part with
  | nil =>
    have hname := operationName_eq_of_ending (String.toList_inj.1 hending)
    have htext : other.text = request.text := String.toList_inj.1 (by simpa using htext)
    obtain ⟨text, operationName⟩ := request
    subst htext hname
    exact .inl rfl
  | cons first rest =>
    have hother : other.ending.toList ≠ [] := by
      rw [ending]
      split <;> simp
    have hname : ∃ name, request.operationName = some name := by
      cases hnone : request.operationName with
      | some name => exact ⟨name, rfl⟩
      | none =>
        rw [ending, hnone] at hending
        simp_all
    obtain ⟨name, hname⟩ := hname
    rw [ending, hname] at hending
    simp only [String.toList_append, List.cons_append] at hending
    obtain ⟨hfirst, hrest⟩ : '\x01' = first ∧ name.toList = rest ++ other.ending.toList :=
      List.cons.inj hending
    subst hfirst
    refine .inr ⟨String.ofList rest, ?_, hname.trans (congrArg some ?_)⟩
    · rw [← String.toList_inj, htext]
      simp
    · rw [← String.toList_inj, hrest]
      simp

theorem Imitates.key_eq (h : request.Imitates other) : request.key = other.key := by
  obtain ⟨part, htext, hname⟩ := h
  rw [PlanRequest.key_eq request, PlanRequest.key_eq other, htext, ending, hname]
  simp only [String.append_assoc]

/-- Two requests have one key only if they are the same or one of them imitates the other one. -/
theorem key_eq_iff :
    request.key = other.key ↔
      request = other ∨ request.Imitates other ∨ other.Imitates request := by
  constructor
  · intro h
    rw [key_eq, key_eq, PlanKey.mk.injEq, ← String.toList_inj, String.toList_append,
      String.toList_append, List.append_eq_append_iff] at h
    -- The part by which one of the queries is longer than the other one.
    rcases h with ⟨part, htext, hending⟩ | ⟨part, htext, hending⟩
    · exact (eq_or_imitates_of_append htext hending).imp_right .inl
    · exact (eq_or_imitates_of_append htext hending).imp Eq.symm .inr
  · rintro (rfl | h | h)
    · rfl
    · exact h.key_eq
    · exact h.key_eq.symm

/-- A request does not imitate any other one if the name of its operation has none of the characters
that stand between queries and names. -/
theorem not_imitates_of_name
    (h : ∀ name ∈ request.operationName, '\x00' ∉ name.toList ∧ '\x01' ∉ name.toList) :
    ¬ request.Imitates other := by
  rintro ⟨part, -, hname⟩
  obtain ⟨hnull, hone⟩ := h _ hname
  cases hother : other.operationName with
  | none => simp [ending, hother] at hnull
  | some name => simp [ending, hother] at hone

end PlanRequest

namespace Client

variable {client : Client World} {earlier : List PlanRequest}

/-- The clients that have planned the listed requests, in order, and whose store has been changed in
between. -/
inductive After : List PlanRequest → Client World → Prop where
  | ofConfig (config : Config) (registry : Registry World) : After [] (ofConfig config registry)
  | plan {earlier : List PlanRequest} {client : Client World} (h : After earlier client)
      (request : PlanRequest) :
      After (earlier ++ [request]) (client.plan request.text request.operationName).2
  | store {earlier : List PlanRequest} {client : Client World} (h : After earlier client)
      (snapshot : Snapshot) :
      After earlier { client with store := { client.store with snapshot } }

/-- Every plan that is kept was built for one of the requests. -/
def KeepsOnly (client : Client World) (earlier : List PlanRequest) : Prop :=
  ∀ entry ∈ client.plans.entries, ∃ request ∈ earlier, entry.1 = request.key ∧
    client.buildPlan request.text request.operationName = .ok entry.2.plan

theorem KeepsOnly.mono (h : client.KeepsOnly earlier) (later : List PlanRequest) :
    client.KeepsOnly (earlier ++ later) := by
  intro entry hentry
  obtain ⟨request, hrequest, hbuilt⟩ := h entry hentry
  exact ⟨request, List.mem_append_left _ hrequest, hbuilt⟩

/-- Planning a request keeps the plans that were kept, or some of them, and its own one. -/
theorem KeepsOnly.plan (h : client.KeepsOnly earlier) (request : PlanRequest) :
    (client.plan request.text request.operationName).2.KeepsOnly (earlier ++ [request]) := by
  rcases hplan : client.plan request.text request.operationName with ⟨result, after⟩
  cases result with
  | error error =>
    obtain rfl := plan_error hplan
    exact h.mono _
  | ok built =>
    rcases plan_ok hplan with ⟨plans, hfound, rfl⟩ | ⟨hbuilt, rfl⟩
    · obtain ⟨hmem, rfl⟩ := PlanCache.find?_eq_some hfound
      intro entry hentry
      refine h.mono [request] entry ?_
      rcases List.mem_cons.1 hentry with rfl | hentry
      · exact hmem
      · exact (List.mem_filter.1 hentry).1
    · intro entry hentry
      rcases List.mem_cons.1 (List.mem_of_mem_take hentry) with rfl | hentry
      · exact ⟨request, by simp, rfl, hbuilt⟩
      · exact h.mono [request] entry (List.mem_filter.1 hentry).1

/-- Whatever was planned before, each plan that is kept was built for one of these requests. -/
theorem After.keepsOnly (h : client.After earlier) : client.KeepsOnly earlier := by
  induction h with
  | ofConfig config registry => exact fun _ hentry ↦ absurd hentry List.not_mem_nil
  | plan _ request ih => exact ih.plan request
  | store _ _ ih => exact ih

/-- A request is planned as if there were no cache, if no earlier request that could be planned is
kept under the same key. -/
theorem plan_eq_of_key (h : client.After earlier) {request : PlanRequest}
    (hkey : ∀ other ∈ earlier, ∀ plan,
      client.buildPlan other.text other.operationName = .ok plan → request.key = other.key →
        request = other) :
    (client.plan request.text request.operationName).1.map BuiltPlan.plan
      = client.buildPlan request.text request.operationName := by
  rcases hplan : client.plan request.text request.operationName with ⟨result, after⟩
  cases result with
  | error error =>
    cases hfound : client.plans.find? (PlanKey.ofQuery request.text request.operationName) with
    | some found =>
      rw [plan_of_found hfound] at hplan
      cases hplan
    | none =>
      cases hbuild : client.buildPlan request.text request.operationName with
      | error error' =>
        rw [plan_of_error hfound hbuild] at hplan
        cases hplan
        rfl
      | ok plan =>
        rw [plan_of_built hfound hbuild] at hplan
        cases hplan
  | ok built =>
    rcases plan_ok hplan with ⟨plans, hfound, -⟩ | ⟨hbuilt, -⟩
    · obtain ⟨hmem, -⟩ := PlanCache.find?_eq_some hfound
      obtain ⟨other, hother, hsame, hbuilt⟩ := h.keepsOnly _ hmem
      obtain rfl := hkey other hother _ hbuilt hsame
      exact hbuilt.symm
    · exact hbuilt.symm

/-- Whatever was planned before and is kept or has given way, a request gets the plan or the error
that it gets when its query is read, planned and validated afresh. No earlier request with a plan
may imitate it or be imitated by it. -/
theorem plan_eq_buildPlan (h : client.After earlier) (request : PlanRequest)
    (hdistinct : ∀ other ∈ earlier, ∀ plan,
      client.buildPlan other.text other.operationName = .ok plan →
        ¬ request.Imitates other ∧ ¬ other.Imitates request) :
    (client.plan request.text request.operationName).1.map BuiltPlan.plan
      = client.buildPlan request.text request.operationName := by
  refine plan_eq_of_key h fun other hother plan hplan hkey ↦ ?_
  obtain ⟨himitates, himitated⟩ := hdistinct other hother plan hplan
  rcases PlanRequest.key_eq_iff.1 hkey with heq | himitation | himitation
  · exact heq
  · exact absurd himitation himitates
  · exact absurd himitation himitated

section Sample

/-- A query that ends with a comment, in which there is the character `U+0001`. -/
def commentedRequest : PlanRequest where
  text := "{ a } #\x01x"
  operationName := none

/-- The plan of the query. -/
def commentedPlan : QueryPlan where
  kind := .query
  operationName := none
  rootType := "Query"
  variableDefaults := []
  selection := ⟨0, [.leaf ⟨"a", "a", false, [], some [], some "a", some "Query", [], []⟩]⟩

/-- A client that has planned the request. -/
def commentedClient : Client Nat :=
  ((ofConfig {} []).plan commentedRequest.text commentedRequest.operationName).2

theorem commentedClient_after : commentedClient.After [commentedRequest] :=
  .plan (.ofConfig {} []) commentedRequest

/-- Asking for an operation with a name that the query lacks. -/
theorem plan_eq_buildPlan_commentedClient :
    (commentedClient.plan "{ a } #" (some "x")).1.map BuiltPlan.plan
        = commentedClient.buildPlan "{ a } #" (some "x") ∧
      commentedClient.buildPlan "{ a } #" (some "x") = .error (.unknownOperation "x") := by
  refine ⟨?_, by cbv⟩
  refine plan_eq_buildPlan commentedClient_after ⟨"{ a } #", some "x"⟩ fun other hother _ _ ↦ ?_
  obtain rfl := List.mem_singleton.1 hother
  exact ⟨PlanRequest.not_imitates_of_name (by simp),
    PlanRequest.not_imitates_of_name (by simp [commentedRequest])⟩

/-- A client may answer with the plan of a request that is imitated, where there is no operation
with the name that is asked for. -/
theorem plan_of_imitation :
    commentedClient.After [commentedRequest] ∧
      (commentedClient.plan "{ a } #" (some "x\x00")).1.map BuiltPlan.plan = .ok commentedPlan ∧
      commentedClient.buildPlan "{ a } #" (some "x\x00")
        = .error (.unknownOperation "x\x00") := by
  exact ⟨commentedClient_after, by cbv, by cbv⟩

end Sample

end Client

end GraphCache
