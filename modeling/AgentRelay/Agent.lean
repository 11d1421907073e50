import AgentRelay.Body.Spelling

/-
  The agents, and what is known of each: where its files lie, how it spells
  placeholders, and which fields it understands.

  One agent is the hub; the others are its spokes.
-/

namespace AgentRelay

/-- The agents, in the order in which they are listed. -/
inductive Agent where
  | claude : Agent
  | gemini : Agent
  | codex : Agent
  | opencode : Agent
  | copilot : Agent
  | cursor : Agent
  | chimera : Agent
  deriving DecidableEq, Repr

/-- How an agent writes a command. -/
inductive Format where
  | markdown : Format
  | table : Format
  | plain : Format
  deriving DecidableEq, Repr

namespace Agent

def all : List Agent := [claude, gemini, codex, opencode, copilot, cursor, chimera]

/-- The agent that keeps what the others lack. -/
def hub : Agent := chimera

/-- Every agent but the hub. -/
def spokes : List Agent := all.filter (· ≠ hub)

def name : Agent → String
  | claude => "claude"
  | gemini => "gemini"
  | codex => "codex"
  | opencode => "opencode"
  | copilot => "copilot"
  | cursor => "cursor"
  | chimera => "chimera"

def ofName? (s : String) : Option Agent := all.find? fun a => a.name == s

def title : Agent → String
  | claude => "Claude Code"
  | gemini => "Gemini CLI"
  | codex => "Codex CLI"
  | opencode => "OpenCode"
  | copilot => "GitHub Copilot"
  | cursor => "Cursor"
  | chimera => "Chimera"

def format : Agent → Format
  | gemini => .table
  | cursor => .plain
  | _ => .markdown

def commandFolder : Agent → String
  | codex => "prompts"
  | copilot => "prompts"
  | _ => "commands"

def skillFolder (_ : Agent) : String := "skills"

def projectBase : Agent → String
  | claude => ".claude"
  | gemini => ".gemini"
  | codex => ".codex"
  | opencode => ".opencode"
  | copilot => ".github"
  | cursor => ".cursor"
  | chimera => ".config/acsync"

def homeBase : Agent → String
  | claude => ".claude"
  | gemini => ".gemini"
  | codex => ".codex"
  | opencode => ".config/opencode"
  | copilot => ".copilot"
  | cursor => ".cursor"
  | chimera => ".config/acsync"

def extension : Agent → List Char
  | gemini => ".toml".toList
  | copilot => ".prompt.md".toList
  | _ => ".md".toList

def spelling : Agent → Body.Spelling
  | gemini => Body.Spelling.gemini
  | _ => Body.Spelling.claude

def missingKinds : Agent → List Body.Kind
  | gemini => [.argument]
  | codex => [.shell, .file]
  | copilot => Body.Kind.all
  | cursor => Body.Kind.all
  | _ => []

/-- Command fields an agent does not understand. -/
def foreignCommandFields : Agent → List String
  | gemini => ["allowed-tools", "argument-hint", "model"]
  | codex => ["allowed-tools", "argument-hint", "model"]
  | opencode => ["allowed-tools", "argument-hint"]
  | copilot => ["allowed-tools"]
  | _ => []

/-- Fields an agent never writes in front of a command. -/
def skippedCommandFields : Agent → List String
  | claude => ["prompt"]
  | copilot => ["prompt"]
  | _ => []

/-- The blanks around a command's text are cut off when it is read. -/
def stripsContent : Agent → Bool
  | codex => true
  | opencode => true
  | _ => false

/-- Skill fields an agent does not understand. -/
def foreignSkillFields : Agent → List String
  | gemini => claudeOnly
  | codex => claudeOnly
  | opencode => ["user-invocable", "allowed-tools", "argument-hint", "context", "hooks"]
  | copilot => ["context", "hooks", "allowed-tools", "user-invocable"]
  | cursor => ["context", "hooks", "model", "agent", "argument-hint"]
  | _ => []
where
  claudeOnly : List String :=
    ["user-invocable", "allowed-tools", "argument-hint", "model", "context", "agent", "hooks"]

/-- Skill fields an agent does not understand are kept under marked names. -/
def marksForeignFields : Agent → Bool
  | gemini => true
  | codex => true
  | opencode => true
  | _ => false

/-- An agent's own name for a skill field with the shared name behind it. -/
def aliases : Agent → List (String × String)
  | copilot => [("user-invokable", "user-invocable")]
  | _ => []

theorem ofName?_name (a : Agent) : ofName? a.name = some a := by
  cases a <;> rfl

end Agent

end AgentRelay
