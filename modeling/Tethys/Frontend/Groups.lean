import Tethys.Frontend.Reducers
import Tethys.Lib.Groups
import Tethys.Lib.OrdMap
import Mathlib.Data.String.Basic

/-!
# Sessions by workspace and provider

`selectWorkspaceProviderSessionGroups` of `packages/state/src/selectors.ts` keeps a map of maps of
lists and the orders of the keys next to it. The two levels are groups in order of first
appearance, so that more sessions move none of the groups that are there.
-/

namespace Tethys.Frontend

open Lib

structure ProviderSessionGroup where
  providerId : String
  sessions : List SessionState
  deriving DecidableEq

structure WorkspaceSessionGroup where
  workspaceId : String
  providers : List ProviderSessionGroup
  deriving DecidableEq

/-! ## The selector -/

/-- The maps and order lists of the selector. -/
structure Grouping where
  workspaceMap : OrdMap String (OrdMap String (List SessionState))
  workspaceOrder : List String
  providerOrderMap : OrdMap String (List String)

namespace Grouping

def empty : Grouping := ⟨.empty, [], .empty⟩

/-- A workspace that is new gets an empty map and an empty order. -/
def addWorkspace (g : Grouping) (wsId : String) : Grouping :=
  if (g.workspaceMap.get wsId).isSome then g
  else
    { workspaceMap := g.workspaceMap.insert wsId .empty
      workspaceOrder := g.workspaceOrder ++ [wsId]
      providerOrderMap := g.providerOrderMap.insert wsId [] }

/-- A provider that is new gets an empty list, in the map of its workspace. -/
def addProvider (g : Grouping) (wsId pId : String) : Grouping :=
  match g.workspaceMap.get wsId with
  | none => g
  | some providerMap =>
    if (providerMap.get pId).isSome then g
    else
      { g with
        workspaceMap := g.workspaceMap.insert wsId (providerMap.insert pId [])
        providerOrderMap :=
          match g.providerOrderMap.get wsId with
          | some pOrder => g.providerOrderMap.insert wsId (pOrder ++ [pId])
          | none => g.providerOrderMap }

def push (g : Grouping) (wsId pId : String) (session : SessionState) : Grouping :=
  match g.workspaceMap.get wsId with
  | none => g
  | some providerMap =>
    match providerMap.get pId with
    | none => g
    | some list =>
      { g with
        workspaceMap := g.workspaceMap.insert wsId (providerMap.insert pId (list ++ [session])) }

/-- One turn of the first loop. -/
def visit (g : Grouping) (session : SessionState) : Grouping :=
  ((g.addWorkspace session.workspaceId).addProvider session.workspaceId session.providerId).push
    session.workspaceId session.providerId session

def providerGroups (g : Grouping) (wsId : String) : List ProviderSessionGroup :=
  ((g.providerOrderMap.get wsId).getD []).map fun pId =>
    ⟨pId, ((g.workspaceMap.get wsId).bind (·.get pId)).getD []⟩

/-- The second loop, over the orders. -/
def result (g : Grouping) : List WorkspaceSessionGroup :=
  g.workspaceOrder.map fun wsId => ⟨wsId, g.providerGroups wsId⟩

end Grouping

def selectWorkspaceProviderSessionGroups (sessions : List SessionState) :
    List WorkspaceSessionGroup :=
  (sessions.foldl Grouping.visit .empty).result

/-! ## Maps and orders in step -/

/-- The sessions of a workspace. -/
abbrev ofWorkspace (wsId : String) (sessions : List SessionState) : List SessionState :=
  members SessionState.workspaceId wsId sessions

/-- The providers of a workspace, each where it first appears. -/
abbrev providersOf (wsId : String) (sessions : List SessionState) : List String :=
  firsts SessionState.providerId (ofWorkspace wsId sessions)

/-- The maps have the workspaces of the order, under each the providers of the named sessions, and
under each of these its part of the listed sessions. -/
structure Grouping.InStep (g : Grouping) (named listed : List SessionState) : Prop where
  isSome : ∀ wsId, (g.workspaceMap.get wsId).isSome ↔ wsId ∈ g.workspaceOrder
  providers : ∀ wsId ∈ g.workspaceOrder, g.providerOrderMap.get wsId = some (providersOf wsId named)
  lists : ∀ wsId providerMap, g.workspaceMap.get wsId = some providerMap → ∀ pId,
    providerMap.get pId =
      if pId ∈ providersOf wsId named then
        some (members SessionState.providerId pId (ofWorkspace wsId listed))
      else none

section Step
variable {g : Grouping} {seen : List SessionState} (s : SessionState)

theorem providersOf_concat (wsId : String) :
    providersOf wsId (seen ++ [s]) = providersOf wsId seen ++
      if s.workspaceId = wsId ∧ s.providerId ∉ providersOf wsId seen then [s.providerId] else [] := by
  rw [providersOf, ofWorkspace, members_concat]
  by_cases hws : s.workspaceId = wsId
  · rw [if_pos hws, firsts_concat]
    simp only [hws, true_and, ite_not]
  · rw [if_neg hws, List.append_nil, if_neg fun h => hws h.1, List.append_nil]

theorem listed_concat (wsId pId : String) :
    members SessionState.providerId pId (ofWorkspace wsId (seen ++ [s])) =
      members SessionState.providerId pId (ofWorkspace wsId seen) ++
        if s.workspaceId = wsId ∧ s.providerId = pId then [s] else [] := by
  rw [ofWorkspace, members_concat, members_append]
  by_cases hws : s.workspaceId = wsId
  · simp [hws, members, List.filter_singleton]
  · simp [hws, members]

/-- A new workspace has no sessions so far. -/
theorem inStep_addWorkspace (horder : g.workspaceOrder = firsts SessionState.workspaceId seen)
    (h : g.InStep seen seen) :
    (g.addWorkspace s.workspaceId).workspaceOrder = firsts SessionState.workspaceId (seen ++ [s]) ∧
      (g.addWorkspace s.workspaceId).InStep seen seen := by
  rw [firsts_concat, Grouping.addWorkspace]
  have hsome := h.isSome s.workspaceId
  split_ifs with hget hmem hmem
  · rw [List.append_nil]
    exact ⟨horder, h⟩
  · rw [← horder] at hmem
    exact absurd (hsome.mp hget) hmem
  · rw [← horder] at hmem
    exact absurd (hsome.mpr hmem) hget
  · have hnone : ofWorkspace s.workspaceId seen = [] := members_eq_nil hmem
    refine ⟨by rw [horder], ?_, ?_, ?_⟩
    · intro wsId
      have hold := h.isSome wsId
      grind [OrdMap.get_insert]
    · intro wsId hws
      by_cases heq : wsId = s.workspaceId
      · simp [heq, hnone, providersOf]
      · have hold : wsId ∈ g.workspaceOrder := by grind
        simp [heq, h.providers wsId hold]
    · intro wsId providerMap hmap pId
      rw [OrdMap.get_insert] at hmap
      split_ifs at hmap with heq
      · cases hmap
        simp [heq, hnone, providersOf]
      · exact h.lists wsId providerMap hmap pId

/-- A new provider has no sessions so far, and comes last in its workspace. -/
theorem inStep_addProvider (h : g.InStep seen seen) (hws : s.workspaceId ∈ g.workspaceOrder) :
    (g.addProvider s.workspaceId s.providerId).workspaceOrder = g.workspaceOrder ∧
      (g.addProvider s.workspaceId s.providerId).InStep (seen ++ [s]) seen := by
  obtain ⟨providerMap, hmap⟩ := Option.isSome_iff_exists.mp ((h.isSome _).mpr hws)
  have horder := h.providers _ hws
  have hlists := h.lists _ _ hmap
  have hsome : (providerMap.get s.providerId).isSome ↔
      s.providerId ∈ providersOf s.workspaceId seen := by
    rw [hlists]
    split_ifs with hmem <;> simp [hmem]
  simp only [Grouping.addProvider, hmap, horder]
  split_ifs with hget
  · have hold := hsome.mp hget
    have hsame : ∀ wsId, providersOf wsId (seen ++ [s]) = providersOf wsId seen := by
      intro wsId
      rw [providersOf_concat, if_neg, List.append_nil]
      rintro ⟨rfl, hnot⟩
      exact hnot hold
    refine ⟨rfl, h.isSome, ?_, ?_⟩
    · simpa only [hsame] using h.providers
    · simpa only [hsame] using h.lists
  · have hnew : s.providerId ∉ providersOf s.workspaceId seen := fun hmem => hget (hsome.mpr hmem)
    have hnone : members SessionState.providerId s.providerId (ofWorkspace s.workspaceId seen) = [] :=
      members_eq_nil hnew
    refine ⟨rfl, ?_, ?_, ?_⟩
    · intro wsId
      have hold := h.isSome wsId
      grind [OrdMap.get_insert]
    · intro wsId hwsId
      rw [OrdMap.get_insert, providersOf_concat]
      split_ifs with heq hadd hadd <;> grind [h.providers wsId hwsId]
    · intro wsId found hfound pId
      rw [OrdMap.get_insert] at hfound
      rw [providersOf_concat]
      split_ifs at hfound with heq
      · cases hfound
        rw [OrdMap.get_insert, hlists, heq]
        grind
      · have hold := h.lists wsId found hfound pId
        grind

/-- The session comes last in its list. -/
theorem inStep_push (h : g.InStep (seen ++ [s]) seen) (hws : s.workspaceId ∈ g.workspaceOrder) :
    (g.push s.workspaceId s.providerId s).workspaceOrder = g.workspaceOrder ∧
      (g.push s.workspaceId s.providerId s).InStep (seen ++ [s]) (seen ++ [s]) := by
  obtain ⟨providerMap, hmap⟩ := Option.isSome_iff_exists.mp ((h.isSome _).mpr hws)
  have hlists := h.lists _ _ hmap
  have hp : s.providerId ∈ providersOf s.workspaceId (seen ++ [s]) :=
    mem_firsts.mpr ⟨s, by simp [ofWorkspace, members], rfl⟩
  have hlist := hlists s.providerId
  rw [if_pos hp] at hlist
  simp only [Grouping.push, hmap, hlist]
  refine ⟨trivial, ?_, h.providers, ?_⟩
  · intro wsId
    have hold := h.isSome wsId
    grind [OrdMap.get_insert]
  · intro wsId found hfound pId
    rw [OrdMap.get_insert] at hfound
    rw [listed_concat]
    split_ifs at hfound with heq
    · cases hfound
      rw [OrdMap.get_insert, hlists, heq]
      grind
    · have hold := h.lists wsId found hfound pId
      grind

/-- One turn of the loop keeps the maps and the orders in step. -/
theorem inStep_visit (horder : g.workspaceOrder = firsts SessionState.workspaceId seen)
    (h : g.InStep seen seen) :
    (g.visit s).workspaceOrder = firsts SessionState.workspaceId (seen ++ [s]) ∧
      (g.visit s).InStep (seen ++ [s]) (seen ++ [s]) := by
  obtain ⟨horder₁, hstep₁⟩ := inStep_addWorkspace s horder h
  have hws : s.workspaceId ∈ (g.addWorkspace s.workspaceId).workspaceOrder := by
    rw [horder₁]
    exact mem_firsts.mpr ⟨s, by simp, rfl⟩
  obtain ⟨horder₂, hstep₂⟩ := inStep_addProvider s hstep₁ hws
  rw [← horder₂] at hws
  obtain ⟨horder₃, hstep₃⟩ := inStep_push s hstep₂ hws
  exact ⟨(horder₃.trans horder₂).trans horder₁, hstep₃⟩

end Step

theorem inStep_foldl (sessions : List SessionState) :
    (sessions.foldl Grouping.visit .empty).workspaceOrder = firsts SessionState.workspaceId sessions ∧
      (sessions.foldl Grouping.visit .empty).InStep sessions sessions := by
  induction sessions using List.reverseRecOn with
  | nil => exact ⟨rfl, fun _ => by simp [Grouping.empty], nofun, nofun⟩
  | append_singleton sessions s ih =>
    rw [List.foldl_append]
    exact inStep_visit s ih.1 ih.2

/-! ## The groups -/

/-- The groups of the sessions at both levels. -/
def sessionGroups (sessions : List SessionState) : List WorkspaceSessionGroup :=
  (groups SessionState.workspaceId sessions).map fun (wsId, ofWs) =>
    ⟨wsId, (groups SessionState.providerId ofWs).map fun (pId, ofP) => ⟨pId, ofP⟩⟩

/-- The selector gives the groups in order of first appearance. -/
theorem select_eq (sessions : List SessionState) :
    selectWorkspaceProviderSessionGroups sessions = sessionGroups sessions := by
  obtain ⟨horder, hstep⟩ := inStep_foldl sessions
  rw [selectWorkspaceProviderSessionGroups, Grouping.result, sessionGroups, groups, List.map_map,
    horder]
  refine List.map_congr_left fun wsId hws => ?_
  rw [← horder] at hws
  obtain ⟨providerMap, hmap⟩ := Option.isSome_iff_exists.mp ((hstep.isSome _).mpr hws)
  simp only [Function.comp_apply, Grouping.providerGroups, hstep.providers wsId hws, hmap,
    Option.getD_some, Option.bind_some, groups, List.map_map]
  congr 1
  refine List.map_congr_left fun pId hp => ?_
  rw [hstep.lists wsId providerMap hmap, if_pos hp]
  rfl

/-- The groups stay at their places with their sessions, and more may come after each. -/
def Keeps (before after : List WorkspaceSessionGroup) : Prop :=
  ∀ (i : Nat) w, before[i]? = some w → ∃ w', after[i]? = some w' ∧ w'.workspaceId = w.workspaceId ∧
    ∀ (j : Nat) p, w.providers[j]? = some p → ∃ p', w'.providers[j]? = some p' ∧
      p'.providerId = p.providerId ∧ p.sessions <+: p'.sessions

theorem keeps_append (sessions more : List SessionState) :
    Keeps (sessionGroups sessions) (sessionGroups (sessions ++ more)) := by
  intro i w hw
  simp only [sessionGroups, List.getElem?_map, Option.map_eq_some_iff] at hw ⊢
  obtain ⟨⟨wsId, ofWs⟩, hget, rfl⟩ := hw
  refine ⟨_, ⟨_, getElem?_groups_append hget, rfl⟩, rfl, ?_⟩
  intro j p hp
  simp only [List.getElem?_map, Option.map_eq_some_iff] at hp ⊢
  obtain ⟨⟨pId, ofP⟩, hget', rfl⟩ := hp
  exact ⟨_, ⟨_, getElem?_groups_append hget', rfl⟩, rfl, List.prefix_append _ _⟩

theorem perm_sessionGroups (sessions : List SessionState) :
    ((sessionGroups sessions).flatMap fun w => w.providers.flatMap (·.sessions)).Perm sessions := by
  have hinner : ∀ ofWs : List SessionState,
      (((groups SessionState.providerId ofWs).map fun (pId, ofP) =>
        (⟨pId, ofP⟩ : ProviderSessionGroup)).flatMap (·.sessions)).Perm ofWs := fun ofWs => by
    rw [List.flatMap_map]
    exact perm_groups _ ofWs
  rw [sessionGroups, List.flatMap_map]
  exact (List.Perm.flatMap_left _ fun _ _ => hinner _).trans (perm_groups _ sessions)

/-- Each session is in the groups once, under its workspace and its provider; workspaces, providers
and sessions are in the order of first appearance, and more sessions move none of them. -/
theorem select_partition (sessions more : List SessionState) :
    ((selectWorkspaceProviderSessionGroups sessions).flatMap fun w =>
        w.providers.flatMap (·.sessions)).Perm sessions ∧
      InFirstOrder SessionState.workspaceId sessions
        ((selectWorkspaceProviderSessionGroups sessions).map (·.workspaceId)) ∧
      (∀ w ∈ selectWorkspaceProviderSessionGroups sessions,
        InFirstOrder SessionState.providerId (sessions.filter (·.workspaceId = w.workspaceId))
          (w.providers.map (·.providerId)) ∧
        ∀ p ∈ w.providers, p.sessions = sessions.filter fun s =>
          s.workspaceId = w.workspaceId ∧ s.providerId = p.providerId) ∧
      Keeps (selectWorkspaceProviderSessionGroups sessions)
        (selectWorkspaceProviderSessionGroups (sessions ++ more)) := by
  simp only [select_eq]
  refine ⟨perm_sessionGroups sessions, ?_, ?_, keeps_append sessions more⟩
  · rw [sessionGroups, List.map_map]
    exact inFirstOrder_groups SessionState.workspaceId sessions
  · intro w hw
    obtain ⟨⟨wsId, ofWs⟩, hmem, rfl⟩ := List.mem_map.mp hw
    obtain rfl := mem_groups hmem
    refine ⟨?_, ?_⟩
    · rw [List.map_map]
      exact inFirstOrder_groups SessionState.providerId (ofWorkspace wsId sessions)
    · intro p hp
      obtain ⟨⟨pId, ofP⟩, hmem', rfl⟩ := List.mem_map.mp hp
      obtain rfl := mem_groups hmem'
      rw [members, members, List.filter_filter]
      exact List.filter_congr fun s _ => by grind

end Tethys.Frontend
