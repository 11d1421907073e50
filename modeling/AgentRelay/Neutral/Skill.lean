import AgentRelay.Neutral.Hub

/-
  Skills on their way between agents.

  A field that the agent does not understand travels under a marked name in
  some agents, and one agent keeps two fields and the permission to be used by
  the model in a configuration of its own.
-/

namespace AgentRelay

namespace Skill

def invocationKeys (a : Agent) : List String :=
  if a.marksForeignFields then [invocationKey, markedInvocationKey] else [invocationKey]

def sharedName (a : Agent) (key : Scalar) : Scalar :=
  match a.aliases.find? fun e => key.same (.text e.1) with
  | some e => .text e.2
  | none => key

/-- The name an extra gets from an agent's field. Where names may be marked,
a key must be a text. -/
def extraKey (a : Agent) (key : Scalar) : Except Misfit Scalar :=
  if a.marksForeignFields then
    match key with
    | .text k =>
      if FieldKey.isMarked k then .ok (.text (FieldKey.unmark k)) else .ok (sharedName a key)
    | .torn k => .ok (((FieldKey.unmarkTorn? k).map Scalar.torn).getD (sharedName a key))
    | .bytes _ => .error .wrongKind
    | _ => .error .unable
  else .ok (sharedName a key)

/-- What one field says: it is shared, or it becomes an extra. -/
def addField (a : Agent) (acc : Shared × Mapping) (e : Scalar × Value) :
    Except Misfit (Shared × Mapping) :=
  let (s, extras) := acc
  let isKey (k : String) : Bool := e.1.same (.text k)
  if isKey nameKey || isKey descriptionKey then .ok acc
  else if (invocationKeys a).any isKey then
    .ok ({ s with invocation := e.2.bool?.map (!·) }, extras)
  else if isKey provenanceKey then
    (provenance e.2).map fun history => ({ s with history := history }, extras)
  else (extraKey a e.1).map fun k => (s, Mapping.set extras k e.2)

/-- The shared properties and the extras among the fields of a skill. -/
def split (a : Agent) (fields : Mapping) : Except Misfit (Shared × Mapping) :=
  fields.foldlM (addField a)
    ({ Shared.none with
        name := Mapping.field fields nameKey
        description := Mapping.field fields descriptionKey }, [])

def policyKey : String := "policy"

def permissionKey : String := "allow_implicit_invocation"

/-- The permission a configuration grants, when it says so. -/
def permission? (config : Mapping) : Option Bool :=
  match (Mapping.field config policyKey).entries? with
  | some m => (Mapping.field m permissionKey).bool?
  | none => none

def withConfig (config extras : Mapping) : Mapping :=
  Mapping.merge extras (Mapping.without config policyKey)

/-- A skill of an agent in the form in which it travels to a destination. -/
def toNeutral (a : Agent) (destination : Option String) (s : Skill) : Except Misfit Neutral := do
  let own := if a = Agent.hub then Mapping.without s.fields Hub.sectionKey else s.fields
  let (shared, extras) ← split a own
  let background : Background := ⟨s.folder, some a.name, some s.support, s.name⟩
  let n : Neutral := ⟨.skill, bodyOf a s.content, shared, extras, background⟩
  if a = Agent.hub then return { n with extras := Hub.extrasFor destination s.fields extras }
  else if a = .codex then
    let config := s.config.getD []
    return { n with
      extras := withConfig config extras
      shared := { shared with
        -- What the configuration permits counts before the field.
        invocation := match permission? config with
          | some b => some b
          | none => shared.invocation } }
  else return n

/-- The name of a skill without one. -/
def defaultName : String := "unnamed-skill"

end Skill

namespace Neutral

def ownName (a : Agent) (key : Scalar) : Scalar :=
  match a.aliases.find? fun e => key.same (.text e.2) with
  | some e => .text e.1
  | none => key

/-- An agent does not understand an extra. -/
def isForeign (a : Agent) (key : Scalar) : Bool :=
  a.foreignSkillFields.any fun s => key.same (.text s)

/-- The name under which an agent keeps an extra. -/
def keptName (a : Agent) (key : Scalar) : Scalar :=
  match key with
  | .text k =>
    ownName a (if isForeign a key && a.marksForeignFields then .text (FieldKey.mark k) else key)
  | key => ownName a key

/-- Adds the extras an agent keeps; a field that is there already stays. -/
def addSkillExtras (a : Agent) (removeForeign : Bool) (extras fields : Mapping) : Mapping :=
  extras.foldl (fun fields e =>
    let key := keptName a e.1
    if (isForeign a e.1 && removeForeign) || Mapping.contains fields key then fields
    else Mapping.set fields key e.2) fields

/-- Adds the field that keeps the model from using the skill. -/
def addInvocation (a : Agent) (removeForeign : Bool) (enabled : Option Bool) (fields : Mapping) :
    Mapping :=
  match enabled with
  | none => fields
  | some b =>
    if !a.marksForeignFields then Mapping.set fields (.text invocationKey) (.bool (!b))
    else if removeForeign then fields
    else Mapping.set fields (.text markedInvocationKey) (.bool (!b))

def skillFields (a : Agent) (removeForeign : Bool) (n : Neutral) : Mapping :=
  addHistory n.shared.history
    (addSkillExtras a removeForeign n.extras
      (addInvocation a removeForeign n.shared.invocation
        (addField descriptionKey n.shared.description (addField nameKey n.shared.name []))))

def configKeys : List String := ["interface", "dependencies"]

def skillConfig (n : Neutral) : Mapping :=
  let start : Mapping :=
    match n.shared.invocation with
    | some b =>
      [(.text Skill.policyKey, Value.mapping [(.text Skill.permissionKey, .bool b)])]
    | none => []
  configKeys.foldl (fun m k => addField k (Mapping.field n.extras k) m) start

/-- The document without the fields that travel in a configuration. -/
def withoutConfig (n : Neutral) : Neutral :=
  { n with extras := configKeys.foldl (fun m k => Mapping.without m k) n.extras }

/-- The fields the hub keeps outside its section. -/
def hubKeys : List String := [nameKey, descriptionKey, invocationKey, provenanceKey]

def hubSkillFields (o : WriteOptions) (n : Neutral) : Mapping :=
  Hub.addSection n.background.agent n.extras o.existing
    ((n.skillFields Agent.hub o.removeForeign).filter fun e =>
      hubKeys.any fun k => e.1.same (.text k))

def toSkill (a : Agent) (o : WriteOptions) (n : Neutral) : Skill :=
  let fields :=
    if a = Agent.hub then n.hubSkillFields o
    else if a = .codex then n.withoutConfig.skillFields a o.removeForeign
    else n.skillFields a o.removeForeign
  let config := if a = .codex ∧ !n.skillConfig.isEmpty then some n.skillConfig else none
  { name := if n.background.skillName.truthy then n.background.skillName
      else .text Skill.defaultName
    content := bodyText a n.body
    folder := n.background.path
    support := n.background.support.getD []
    fields := fields
    config := config }

end Neutral

end AgentRelay
