import Tethys.Sync.Idempotence
import Tethys.Sync.RoundTrip

/-!
# References to secrets

A config file never holds the value of a secret. It holds a reference to an environment
variable where the format of the target has a place for one, and the secret is left out
elsewhere. `plan` is to mark the entries that lose a secret: it does so for the env of a
Codex stdio entry only.
-/

namespace Tethys.Sync

open Schema Lib

/-- A value of an entry that is kept in the keychain, by its key. -/
inductive Secret where
  | env (key : String)
  | header (key : String)
  deriving DecidableEq

/-- The keys of a map with a secret value. -/
def secretKeys (map : OrdMap String RegistryValue) : List String :=
  (map.entries.filter fun e => e.2.secretRef.isSome).map Prod.fst

def secretsOf (entry : RegistryEntry) : List Secret :=
  (secretKeys entry.env).map .env ++ (secretKeys entry.headers).map .header

/-- The text under a key of a section of an object. -/
def textAt (value : Node) (part key : String) : Option String :=
  (((value.asObject.bind (field · part)).bind Node.asObject).bind (field · key)).bind Node.asStr

/-- The value written for an entry has the target's reference for a secret: `${KEY}` under the
key for Claude Code, `{env:KEY}` for OpenCode, the variable of the bearer token for Codex. -/
def refersTo (target : ProjectionTarget) (value : Node) : Secret → Bool
  | .env key => match target with
    | .claudeCode => textAt value "env" key = some ("$\x7b" ++ key ++ "\x7d")
    | .openCode => textAt value "environment" key = some ("\x7benv:" ++ key ++ "\x7d")
    | .codex => (value.asTable.bind (·.lookup "bearer_token_env_var")).bind Node.asStr = some key
  | .header key => match target with
    | .claudeCode => textAt value "headers" key = some ("$\x7b" ++ key ++ "\x7d")
    | .openCode => textAt value "headers" key = some ("\x7benv:" ++ key ++ "\x7d")
    | .codex => false

/-- The text carries a reference for a secret of the entry with this name. -/
def Referenced (F : Formats) (target : ProjectionTarget) (text name : String) (secret : Secret) :
    Prop :=
  ∃ doc value, openDoc F target text = .ok doc ∧
    (serversOf target doc).lookup name = some value ∧ refersTo target value secret = true

/-- The fields that the target writes for the transport have room for the secret. Codex has
room for the first secret variable of an http entry. -/
def hasPlace (target : ProjectionTarget) (entry : RegistryEntry) : Secret → Bool
  | .env key => match target with
    | .claudeCode | .openCode => entry.transport = .stdio
    | .codex => entry.transport = .http ∧ secretEnvKey entry = some key
  | .header _ => match target with
    | .claudeCode | .openCode => entry.transport = .http
    | .codex => false

/-! ## What is written -/

section Written
variable {F : Formats} {target : ProjectionTarget} {text text' name key : String}
  {entry : RegistryEntry} {value : Node} {secret : Secret}

theorem mem_secretKeys {map : OrdMap String RegistryValue} :
    key ∈ secretKeys map ↔ ∃ ref, map.get key = some (.secret ref) := by
  simp only [secretKeys, List.mem_map, List.mem_filter]
  constructor
  · rintro ⟨⟨_, value⟩, ⟨hmem, hsecret⟩, rfl⟩
    cases value with
    | plain text => cases hsecret
    | secret ref => exact ⟨ref, OrdMap.get_eq_some.mpr hmem⟩
  · rintro ⟨ref, hget⟩
    exact ⟨(key, .secret ref), ⟨OrdMap.get_eq_some.mp hget, rfl⟩, rfl⟩

theorem mem_secretsOf_env : .env key ∈ secretsOf entry ↔ key ∈ secretKeys entry.env := by
  simp [secretsOf]

theorem mem_secretsOf_header : .header key ∈ secretsOf entry ↔ key ∈ secretKeys entry.headers := by
  simp [secretsOf]

/-- A section that holds the values of a map, for the transport that has it: a secret of the
map is referred to there, and no secret is without it. -/
theorem textAt_part {ref : String → RegistryValue → String} {map : OrdMap String RegistryValue}
    {part text : String} {c : Prop} [Decidable c]
    (h : value.asObject.bind (field · part) =
      if c ∧ map.entries ≠ [] then some (refObject ref map) else none)
    (hkey : key ∈ secretKeys map) (href : ∀ secretRef, ref key (.secret secretRef) = text) :
    textAt value part key = some text ↔ c := by
  obtain ⟨secretRef, hget⟩ := mem_secretKeys.mp hkey
  have hne : map.entries ≠ [] := by
    intro hnil
    simp [OrdMap.get, hnil] at hget
  have hmembers : map.entries.map (fun e => (e.1, Node.string (ref e.1 e.2))) =
      (map.mapKeyed fun key value => Node.string (ref key value)).entries := rfl
  by_cases hc : c
  · rw [if_pos ⟨hc, hne⟩] at h
    rw [textAt, h]
    simp [refObject, Node.asObject, Node.asStr, field, hmembers, OrdMap.lookup_reverse_entries,
      hget, href, hc]
  · rw [if_neg fun hboth => hc hboth.1] at h
    rw [textAt, h]
    simp [hc]

theorem claudeCode_parts (hvalue : ClaudeCode.entryValue entry = .ok value) :
    (value.asObject.bind (field · "env") =
      if entry.transport = .stdio ∧ entry.env.entries ≠ [] then some (refObject claudeRef entry.env)
      else none) ∧
    (value.asObject.bind (field · "headers") =
      if entry.transport = .http ∧ entry.headers.entries ≠ [] then
        some (refObject claudeRef entry.headers)
      else none) := by
  obtain ⟨transport, command, args, env, url, headers, entryMeta⟩ := entry
  cases transport with
  | sse => cases hvalue
  | stdio =>
    obtain ⟨command, -, hvalue⟩ := bind_eq_ok hvalue
    obtain rfl := Except.ok.inj hvalue
    cases hargs : args.isEmpty <;> cases henv : env.entries <;> simp [field, Node.asObject]
  | http =>
    obtain ⟨url, -, hvalue⟩ := bind_eq_ok hvalue
    obtain rfl := Except.ok.inj hvalue
    cases hheaders : headers.entries <;> simp [field, Node.asObject]

theorem openCode_parts (hvalue : OpenCode.entryValue entry = .ok value) :
    (value.asObject.bind (field · "environment") =
      if entry.transport = .stdio ∧ entry.env.entries ≠ [] then
        some (refObject opencodeRef entry.env)
      else none) ∧
    (value.asObject.bind (field · "headers") =
      if entry.transport = .http ∧ entry.headers.entries ≠ [] then
        some (refObject opencodeRef entry.headers)
      else none) := by
  obtain ⟨transport, command, args, env, url, headers, entryMeta⟩ := entry
  cases transport with
  | sse => cases hvalue
  | stdio =>
    obtain ⟨command, -, hvalue⟩ := bind_eq_ok hvalue
    obtain rfl := Except.ok.inj hvalue
    cases henv : env.entries <;> simp [field, Node.asObject]
  | http =>
    obtain ⟨url, -, hvalue⟩ := bind_eq_ok hvalue
    obtain rfl := Except.ok.inj hvalue
    cases hheaders : headers.entries <;> simp [field, Node.asObject]

/-- The bearer token of Codex is that of the first secret variable of an http entry. -/
theorem codex_bearer {table : Members} (hvalue : Codex.entryTable entry = .ok table) :
    (table.lookup "bearer_token_env_var").bind Node.asStr =
      if entry.transport = .http then secretEnvKey entry else none := by
  obtain ⟨transport, command, args, env, url, headers, entryMeta⟩ := entry
  cases transport with
  | sse => cases hvalue
  | stdio =>
    obtain ⟨command, -, hvalue⟩ := bind_eq_ok hvalue
    obtain rfl := Except.ok.inj hvalue
    change (List.lookup "bearer_token_env_var" _).bind Node.asStr = none
    split_ifs <;> simp
  | http =>
    obtain ⟨url, -, hvalue⟩ := bind_eq_ok hvalue
    obtain rfl := Except.ok.inj hvalue
    dsimp only
    cases secretEnvKey _ <;> simp [Node.asStr]

/-- A secret of an entry is referred to in what is written for it exactly when the target has
a place for it. -/
theorem refersTo_eq_hasPlace (hvalue : entryNode target entry = .ok value)
    (hsecret : secret ∈ secretsOf entry) :
    refersTo target value secret = hasPlace target entry secret := by
  cases target with
  | claudeCode =>
    obtain ⟨henv, hheaders⟩ := claudeCode_parts hvalue
    cases secret with
    | env key =>
      exact decide_eq_decide.mpr (textAt_part henv (mem_secretsOf_env.mp hsecret) fun _ => rfl)
    | header key =>
      exact decide_eq_decide.mpr (textAt_part hheaders (mem_secretsOf_header.mp hsecret) fun _ => rfl)
  | openCode =>
    obtain ⟨henv, hheaders⟩ := openCode_parts hvalue
    cases secret with
    | env key =>
      exact decide_eq_decide.mpr (textAt_part henv (mem_secretsOf_env.mp hsecret) fun _ => rfl)
    | header key =>
      exact decide_eq_decide.mpr (textAt_part hheaders (mem_secretsOf_header.mp hsecret) fun _ => rfl)
  | codex =>
    obtain ⟨table, htable, rfl⟩ := map_eq_ok hvalue
    cases secret with
    | env key =>
      by_cases hhttp : entry.transport = .http <;>
        simp [refersTo, hasPlace, Node.asTable, codex_bearer htable, hhttp]
    | header key => rfl

theorem referenced_iff {doc : Node} (hdoc : openDoc F target text = .ok doc)
    (hlookup : (serversOf target doc).lookup name = some value)
    (hvalue : entryNode target entry = .ok value) (hsecret : secret ∈ secretsOf entry) :
    Referenced F target text name secret ↔ hasPlace target entry secret = true := by
  rw [← refersTo_eq_hasPlace hvalue hsecret]
  constructor
  · rintro ⟨doc', value', hdoc', hlookup', hrefers⟩
    obtain rfl := Except.ok.inj (hdoc.symm.trans hdoc')
    obtain rfl := Option.some.inj (hlookup.symm.trans hlookup')
    exact hrefers
  · exact fun hrefers => ⟨doc, value, hdoc, hlookup, hrefers⟩

/-- The secrets that the text of an injection refers to. -/
theorem inject_referenced_iff {desired : List (String × RegistryEntry)}
    (hback : PrintsBack F target desired) (hmem : (name, entry) ∈ desired)
    (hinject : (projectors F target).inject text name entry = .ok text')
    (hsecret : secret ∈ secretsOf entry) :
    Referenced F target text' name secret ↔ hasPlace target entry secret = true := by
  obtain ⟨doc, value, doc', hdoc, hvalue, hput, rfl⟩ := inject_eq_ok hinject
  have hopen := hback name entry hmem text doc value doc' hdoc hvalue hput
  refine referenced_iff hopen ?_ hvalue hsecret
  rw [serversOf_putDoc hput, lookup_putServer, if_pos rfl]

/-- A complete entry can be injected into a new file. -/
theorem inject_blank (hF : F.Sound) (name : String) (hcomplete : Complete entry) :
    ∃ text', (projectors F target).inject "" name entry = .ok text' := by
  obtain ⟨value, hvalue⟩ : ∃ value, entryNode target entry = .ok value :=
    entryNode_iff_complete.mpr hcomplete
  have hsse : entry.transport ≠ .sse := by
    intro hsse
    simp [Complete, hsse] at hcomplete
  have hblank : blank "" = true := rfl
  cases target with
  | claudeCode =>
    have hdoc : openDoc F .claudeCode "" = .ok (.object []) := by
      simp [openDoc, jsonSource, hblank, JsonCst.parse, hF.emptyObject, Except.mapError]
    exact ⟨_, inject_of_put (by decide) hsse hdoc hvalue rfl⟩
  | openCode =>
    have hdoc : openDoc F .openCode "" = .ok (.object []) := by
      simp [openDoc, jsonSource, hblank, JsonCst.parse, hF.emptyObject, Except.mapError]
    exact ⟨_, inject_of_put (by decide) hsse hdoc hvalue rfl⟩
  | codex =>
    obtain ⟨table, htable, rfl⟩ := map_eq_ok hvalue
    refine ⟨F.toml.print "" [("mcp_servers", .table [(name, .table table)])], ?_⟩
    change Codex.inject F "" name entry = _
    rw [Codex.inject, if_neg hsse, htable]
    rfl

end Written

/-! ## What a plan says -/

section Plan
variable {Hash : Type} [DecidableEq Hash] {D : Digests Hash} {F : Formats}
  {target : ProjectionTarget} {owned : OrdMap String Hash} {onDisk : OrdMap String RegistryEntry}
  {desired : List (String × RegistryEntry)} {planned : ProjectionPlan Hash} {path : String}
  {scope : Scope} {original : Option String}

theorem ownedState_ne_unsupported {hash : Option Hash}
    {current : Option RegistryEntry} {entry : RegistryEntry} :
    (ownedState D hash current entry).1 ≠ .unsupported := by
  unfold ownedState
  split
  · split_ifs <;> simp
  all_goals simp

theorem project_unsupported_iff (tag : TargetId) (e : String × RegistryEntry) :
    (project D tag owned onDisk e).state = .unsupported ↔
      e.2.transport = .sse ∨ omitsSecrets tag e.2 = true := by
  by_cases hsse : e.2.transport = .sse
  · simp [project, hsse]
  · rw [project_state hsse]
    cases homits : omitsSecrets tag e.2 <;>
      simp [entryState, homits, hsse, ownedState_ne_unsupported]

theorem project_projected_iff (tag : TargetId) (e : String × RegistryEntry) :
    (project D tag owned onDisk e).projected = true ↔
      e.2.transport ≠ .sse ∧ refuses D tag (owned.get e.1) (onDisk.get e.1) e.2 = false := by
  by_cases hsse : e.2.transport = .sse
  · simp [project, hsse]
  · rw [← Bool.not_eq_true, ← entryState_refuses tag (owned.get e.1) (onDisk.get e.1) hsse]
    simp [project, hsse]

/-- A projected entry that is not in sync is injected. -/
theorem writes_of_projected {tag : TargetId} {e : String × RegistryEntry}
    (hprojected : (project D tag owned onDisk e).projected = true)
    (hinSync : (project D tag owned onDisk e).state ≠ .inSync) :
    writes D tag (owned.get e.1) (onDisk.get e.1) e.2 := by
  obtain ⟨hsse, hrefuses⟩ := (project_projected_iff tag e).mp hprojected
  rw [project_state hsse] at hinSync
  refine (entryState_writes _ _ _ hsse).mp ⟨fun hconflict => ?_, hinSync⟩
  rw [entryState_refuses _ _ _ hsse, hrefuses] at hconflict
  cases hconflict

/-- Every entry that the plan projects, and does not mark as unsupported, has all of its
secrets referred to: in whatever text an injection of it gives, and in the text of the plan
if the plan injects it. -/
def FlagsOmissions (F : Formats) (target : ProjectionTarget)
    (desired : List (String × RegistryEntry)) (planned : ProjectionPlan Hash) : Prop :=
  ∀ e ∈ desired, ∀ p ∈ planned.entries, p.name = e.1 → p.projected = true → p.state ≠ .unsupported →
    (∀ text text', (projectors F target).inject text e.1 e.2 = .ok text' →
      ∀ secret ∈ secretsOf e.2, Referenced F target text' e.1 secret) ∧
    (p.state ≠ .inSync → ∀ secret ∈ secretsOf e.2, Referenced F target planned.content e.1 secret)

/-- A plan flags every omission if and only if the target has a place for each secret of every
complete entry that is neither refused nor a Codex stdio entry with secret variables. -/
theorem omissions_flagged_iff (hF : F.Sound) (hback : PrintsBack F target desired)
    (hnames : (desired.map Prod.fst).Nodup)
    (hplan : plan D F ⟨projectors F target, path, scope, original, desired, owned⟩ = .ok planned) :
    FlagsOmissions F target desired planned ↔
      ∀ e ∈ desired, Complete e.2 →
        refuses D target.targetId (owned.get e.1)
          ((entriesRead F target (original.getD "")).get e.1) e.2 = false →
        omitsSecrets target.targetId e.2 = false →
          ∀ secret ∈ secretsOf e.2, hasPlace target e.2 secret = true := by
  obtain ⟨hentries, -⟩ := plan_eq_ok hplan
  have hprojections := planEntries_projections hentries
  rw [projectors_target] at hprojections
  constructor
  · intro hflags e he hcomplete hrefuses homits secret hsecret
    have hsse : e.2.transport ≠ .sse := by
      intro hsse
      simp [Complete, hsse] at hcomplete
    have hp := hprojections ▸ List.mem_map_of_mem he
    have hprojected := (project_projected_iff (D := D) target.targetId e).mpr ⟨hsse, hrefuses⟩
    obtain ⟨htexts, -⟩ := hflags e he _ hp (project_name e) hprojected (by
      rw [Ne, project_unsupported_iff]
      simp [hsse, homits])
    obtain ⟨text', hinject⟩ : ∃ text', (projectors F target).inject "" e.1 e.2 = .ok text' :=
      inject_blank hF e.1 hcomplete
    exact (inject_referenced_iff hback he hinject hsecret).mp (htexts "" text' hinject secret hsecret)
  · intro hplace e he p hp hname hprojected hsupported
    obtain ⟨e', he', rfl⟩ := List.mem_map.mp (hprojections ▸ hp)
    obtain rfl : e' = e := List.inj_on_of_nodup_map hnames he' he ((project_name e').symm.trans hname)
    obtain ⟨hsse, hrefuses⟩ := (project_projected_iff target.targetId e').mp hprojected
    have homits : omitsSecrets target.targetId e'.2 = false := by
      rw [Ne, project_unsupported_iff] at hsupported
      simpa [hsse] using hsupported
    have hplace : ∀ value, entryNode target e'.2 = .ok value →
        ∀ secret ∈ secretsOf e'.2, hasPlace target e'.2 secret = true := fun value hvalue =>
      hplace e' he (entryNode_iff_complete.mp ⟨value, hvalue⟩) hrefuses homits
    constructor
    · intro text text' hinject secret hsecret
      obtain ⟨_, value, _, -, hvalue, -, -⟩ := inject_eq_ok hinject
      exact (inject_referenced_iff hback he hinject hsecret).mpr (hplace value hvalue secret hsecret)
    · intro hinSync secret hsecret
      obtain ⟨doc, hdoc⟩ := plan_readable target hF rfl hplan
      obtain ⟨doc', hdoc', -, hwrote⟩ := planEntries_read hF hback hnames hentries hdoc
      obtain ⟨value, hvalue, hwrote⟩ := hwrote e'.1 e'.2 he (writes_of_projected hprojected hinSync)
      exact (referenced_iff hdoc' hwrote.value hvalue hsecret).mpr (hplace value hvalue secret hsecret)

end Plan

/-! ## One and two secret variables -/

def bearerText : String :=
  "[mcp_servers.linear]\nurl = \"https://mcp.linear.app\"\n" ++
    "bearer_token_env_var = \"LINEAR_TOKEN\"\n"

def bearerTable : Node :=
  .table [("bearer_token_env_var", .string "LINEAR_TOKEN"), ("url", .string "https://mcp.linear.app")]

/-- The formats on the file that Codex gets for the server. -/
def bearerFormats : Formats where
  json _ := ⟨fun _ => .ok (.object []), fun text _ => text⟩
  toml := (codexFormats [(bearerText, [("mcp_servers", .table [("linear", bearerTable)])])]
    fun _ => bearerText).toml
  patch _ after := after

/-- An http server with the given variables, all of them secret. -/
def linear (keys : List String) : List (String × RegistryEntry) :=
  [("linear", {
    transport := .http
    url := some "https://mcp.linear.app"
    env := .ofList (keys.map fun key => (key, .secret ("keychain:tethys/" ++ key))) })]

theorem bearerFormats_printsBack : PrintsBack bearerFormats .codex (linear ["LINEAR_TOKEN"]) := by
  refine codexFormats_printsBack fun doc hdoc e he value doc' hvalue hput => ?_
  obtain rfl := List.mem_singleton.mp he
  obtain rfl : bearerTable = value := Except.ok.inj hvalue
  change putDoc .codex "linear" bearerTable (.table doc) = _ at hput
  simp only [List.map_cons, List.map_nil, List.mem_cons, List.not_mem_nil, or_false] at hdoc
  rcases hdoc with rfl | rfl <;>
  · obtain rfl := Node.table.inj (Except.ok.inj hput)
    exact ⟨by decide +kernel, rfl⟩

theorem omissions_flagged_bearer :
    ∃ planned, plan exactDigests bearerFormats ⟨projectors bearerFormats .codex, "config.toml",
        .global, none, linear ["LINEAR_TOKEN"], .empty⟩ = .ok planned ∧
      FlagsOmissions bearerFormats .codex (linear ["LINEAR_TOKEN"]) planned := by
  have hsound : bearerFormats.Sound := sound_of_one_file (fun _ => rfl) rfl
  obtain ⟨planned, hplan⟩ : ∃ planned, plan exactDigests bearerFormats
      ⟨projectors bearerFormats .codex, "config.toml", .global, none, linear ["LINEAR_TOKEN"],
        .empty⟩ = .ok planned := ⟨_, rfl⟩
  refine ⟨planned, hplan, (omissions_flagged_iff hsound bearerFormats_printsBack (by decide)
    hplan).mpr ?_⟩
  intro e he _ _ _ secret hsecret
  obtain rfl := List.mem_singleton.mp he
  obtain rfl := List.mem_singleton.mp hsecret
  decide

/-- The second secret variable of a Codex server is left out of the file, and the entry is
reported as pending. -/
theorem second_secret_omitted :
    ∃ planned, plan exactDigests bearerFormats ⟨projectors bearerFormats .codex, "config.toml",
        .global, none, linear ["LINEAR_TOKEN", "LINEAR_WORKSPACE"], .empty⟩ = .ok planned ∧
      planned.entries = [⟨"linear", .pending, true, []⟩] ∧ planned.content = bearerText ∧
      ¬ FlagsOmissions bearerFormats .codex (linear ["LINEAR_TOKEN", "LINEAR_WORKSPACE"])
        planned := by
  refine ⟨_, rfl, rfl, rfl, ?_⟩
  intro hflags
  obtain ⟨-, hcontent⟩ := hflags _ List.mem_cons_self _ List.mem_cons_self rfl rfl (by decide)
  obtain ⟨doc, value, hdoc, hvalue, hrefers⟩ :=
    hcontent (by decide) (.env "LINEAR_WORKSPACE") (by decide)
  obtain rfl := Except.ok.inj hdoc
  obtain rfl := Option.some.inj hvalue
  exact absurd hrefers (by decide)

end Tethys.Sync
