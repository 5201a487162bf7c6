import Scarab.EnvironmentProtection
import Scarab.PipelineValues

/-!
# Stored Policies and what they compile to

A Policy names one checkpoint, a selector, a mode and a body of CEL rules or one typed setting. It
is compiled for the level it attaches to each time it is evaluated.
-/
namespace Scarab.Policy

open Scarab.Pipeline Scarab.Project

inductive Checkpoint where
  | runCreate | stepAdmit | gateResolve
  deriving DecidableEq

def Checkpoint.text : Checkpoint → Text
  | .runCreate => "run.create".toList
  | .stepAdmit => "step.admit".toList
  | .gateResolve => "gate.resolve".toList

inductive TriggerKind where
  | push | pullRequest | tag | release | comment | cron | manual | api | upstream
  deriving DecidableEq

/-- The selector; an empty list matches anything. -/
structure Match where
  projects : List Text
  exceptProjects : List Text
  environments : List Text
  triggerKinds : List TriggerKind

inductive Effect where
  | deny
  | requireApproval (principals : List Text) (count : UInt32)
  | requireStepUp
  deriving DecidableEq

def Effect.name : Effect → Text
  | .deny => "deny".toList
  | .requireApproval _ _ => "require_approval".toList
  | .requireStepUp => "require_step_up".toList

/-- Every checkpoint denies; `gate.resolve` takes the other effects too. -/
def Checkpoint.allows (c : Checkpoint) (e : Effect) : Bool := e = .deny || c = .gateResolve

structure Rule where
  when_ : Text
  effect : Effect
  message : Text

inductive TypedSetting where
  | librariesAllowed (sources : List Text)
  | librariesBlocked (sources : List Text)
  | pluginsAllowed (installations : List Text)

def TypedSetting.name : TypedSetting → Text
  | .librariesAllowed _ => "libraries_allowed".toList
  | .librariesBlocked _ => "libraries_blocked".toList
  | .pluginsAllowed _ => "plugins_allowed".toList

inductive Body where
  | rules (rules : List Rule)
  | setting (s : TypedSetting)

structure AuthoredPolicy where
  name : Text
  checkpoint : Checkpoint
  match_ : Match
  mode : Mode
  body : Body

structure Diagnostic where
  at_ : Text
  line : ℕ
  column : ℕ
  expr : Text
  message : Text

/-- A finding about a Policy's structure. -/
def Diagnostic.about (at_ message : Text) : Diagnostic := ⟨at_, 0, 0, [], message⟩

def Diagnostic.text (d : Diagnostic) : Text :=
  (if d.at_.isEmpty then [] else d.at_ ++ ": ".toList) ++
    if d.line = 0 then d.message
    else natText d.line ++ ':' :: natText d.column ++ ": ".toList ++ ticked d.expr ++ ": ".toList ++
      d.message

structure CelPredicate where
  source : Text
  cost : ℕ
  warnings : List Diagnostic
  reads : List Text

inductive TypedPredicate where
  | librariesAllowed (sources : List Text)
  | librariesBlocked (sources : List Text)
  | pluginsAllowed (installations : List Text)

inductive Predicate where
  | cel (c : CelPredicate)
  | typed (t : TypedPredicate)

structure RuleIr where
  predicate : Predicate
  effect : Effect
  message : Text

structure PolicyIr where
  policyId : Text
  version : ℕ
  contentHash : Text
  name : Text
  level : Level
  checkpoint : Checkpoint
  match_ : Match
  mode : Mode
  rules : List RuleIr

/-- What Policies take from outside: the schemas of the checkpoints' inputs, the CEL checker with
the patterns one Policy's rules share, binding and evaluation, and the hashes. -/
structure PolicyHost where
  Schema : Type
  schema : Checkpoint → Schema
  Patterns : Type
  noPatterns : Patterns
  checkIn : Schema → Text → Patterns → Except (List Diagnostic) CelPredicate × Patterns
  Context : Type
  bind : Schema → Json → Except Text Context
  evaluateWhen : Text → Context → Except Text Bool
  contentHash : AuthoredPolicy → Text
  sha256Hex : Text → Text

/-- The current schema version of every checkpoint. -/
def schemaVersion : ℕ := 1

def schemaFor (host : PolicyHost) (c : Checkpoint) (version : ℕ) : Option host.Schema :=
  if version = schemaVersion then some (host.schema c) else none

def maxNameLen : ℕ := 100

def maxRules : ℕ := 32

def maxList : ℕ := 256

def maxTextLen : ℕ := 1024

def validateName (name : Text) : List Diagnostic :=
  if name.isEmpty || byteLen name > maxNameLen ||
      !name.all (fun c => c.isAlphanum || c = '-' || c = '_' || c = '.') then
    [.about "name".toList (ticked name ++ ": a Policy name is 1 to ".toList ++ natText maxNameLen ++
      " letters, digits, `-`, `_` or `.`".toList)]
  else []

def validateText (text at_ what : Text) : List Diagnostic :=
  if (trim text).isEmpty then [.about at_ (what ++ " cannot be empty".toList)]
  else if byteLen text > maxTextLen then
    [.about at_ (what ++ " is at most ".toList ++ natText maxTextLen ++ " bytes".toList)]
  else []

/-- A place in a list, as findings name it. -/
def indexed (at_ : Text) (i : ℕ) : Text := at_ ++ '[' :: natText i ++ [']']

def validateList (list : List Text) (at_ : Text) : List Diagnostic :=
  (if list.length > maxList then
    [.about at_ ("at most ".toList ++ natText maxList ++ " entries; this has ".toList ++
      natText list.length)]
  else []) ++
    (list.zipIdx.flatMap fun item => validateText item.1 (indexed at_ item.2) "an entry".toList)

def validateMatch (m : Match) : List Diagnostic :=
  validateList m.projects "match.projects".toList ++
    validateList m.exceptProjects "match.except_projects".toList ++
    validateList m.environments "match.environments".toList ++
    if m.triggerKinds.length > maxList then
      [.about "match.trigger_kinds".toList ("at most ".toList ++ natText maxList ++ " entries".toList)]
    else []

def Diagnostic.located (at_ : Text) (d : Diagnostic) : Diagnostic := { d with at_ := at_ }

/-- An effect that no evaluation applies. -/
def effectFindings (c : Checkpoint) (at_ : Text) (e : Effect) : List Diagnostic :=
  if c.allows e && e ≠ .deny then
    [.about (at_ ++ ".effect".toList) (ticked e.name ++ " is not built yet at ".toList ++
      ticked c.text ++ "; only `deny` is evaluated".toList)]
  else if !c.allows e then
    [.about (at_ ++ ".effect".toList) (ticked e.name ++ " is not allowed at ".toList ++
      ticked c.text ++ ", which allows `deny` only".toList)]
  else []

/-- The rules from the `i`-th on: their findings and the rules that pass the checker. -/
def compileRules (host : PolicyHost) (c : Checkpoint) :
    ℕ → host.Patterns → List Rule → List Diagnostic × List RuleIr
  | _, _, [] => ([], [])
  | i, patterns, rule :: rules =>
      let at_ := indexed "rules".toList i
      let checked := host.checkIn (host.schema c) rule.when_ patterns
      let rest := compileRules host c (i + 1) checked.2 rules
      let findings := effectFindings c at_ rule.effect ++
        validateText rule.message (at_ ++ ".message".toList) "a message".toList
      match checked.1 with
      | .ok p =>
          (findings ++ rest.1,
            ⟨.cel { p with warnings := p.warnings.map (.located (at_ ++ ".when".toList)) },
              rule.effect, rule.message⟩ :: rest.2)
      | .error ds => (findings ++ ds.map (.located (at_ ++ ".when".toList)) ++ rest.1, rest.2)

def TypedSetting.entries : TypedSetting → List Text
  | .librariesAllowed sources => sources
  | .librariesBlocked sources => sources
  | .pluginsAllowed installations => installations

def TypedSetting.field : TypedSetting → Text
  | .librariesAllowed _ => "sources".toList
  | .librariesBlocked _ => "sources".toList
  | .pluginsAllowed _ => "installations".toList

/-- A `*` stands at the end of a pattern or nowhere; an installation has none. -/
def wildcardFindings (s : TypedSetting) (at_ : Text) (i : ℕ) (p : Text) : List Diagnostic :=
  let exact := s.field = "installations".toList
  if '*' ∈ p ∧ (p.findIdx (· = '*') ≠ p.length - 1 ∨ exact) then
    [.about (indexed at_ i)
      (ticked p ++
        if exact then ": an installation is named exactly, with no `*`".toList
        else ": a pattern is an exact name or a prefix ending in `*`".toList)]
  else []

def TypedSetting.predicate : TypedSetting → TypedPredicate
  | .librariesAllowed sources => .librariesAllowed sources
  | .librariesBlocked sources => .librariesBlocked sources
  | .pluginsAllowed installations => .pluginsAllowed installations

def TypedSetting.message : TypedSetting → Text
  | .librariesAllowed _ => "This Run uses a library that is not allowed here.".toList
  | .librariesBlocked _ => "This Run uses a blocked library.".toList
  | .pluginsAllowed _ => "This Run has a gate from a plugin that is not allowed here.".toList

def compileSetting (s : TypedSetting) : List Diagnostic × RuleIr :=
  let at_ := "setting.".toList ++ s.name ++ '.' :: s.field
  (validateList s.entries at_ ++
      s.entries.zipIdx.flatMap fun p => wildcardFindings s at_ p.2 p.1,
    ⟨.typed s.predicate, .deny, s.message⟩)

/-- The body's findings and rules. Only the org level writes CEL. -/
def compileBody (host : PolicyHost) (c : Checkpoint) (level : Level) :
    Body → List Diagnostic × List RuleIr
  | .rules rules =>
      if level = .project then
        ([.about "rules".toList
          "Project admins write typed settings only (ADR-0075 §7); use `setting`, or write CEL rules at the org level".toList],
          [])
      else
        let compiled := compileRules host c 0 host.noPatterns rules
        ((if rules.isEmpty then [.about "rules".toList "a Policy needs at least one rule".toList]
            else []) ++
          (if rules.length > maxRules then
            [.about "rules".toList ("a Policy has at most ".toList ++ natText maxRules ++
              " rules; this one has ".toList ++ natText rules.length)]
          else []) ++ compiled.1,
          compiled.2)
  | .setting s =>
      let compiled := compileSetting s
      ((if c ≠ .runCreate then
          [.about "checkpoint".toList (ticked s.name ++ " compiles to `run.create`, not ".toList ++
            ticked c.text)]
        else []) ++ compiled.1,
        [compiled.2])

/-- Every finding about a Policy, in the order it is made. -/
def compileFindings (host : PolicyHost) (policy : AuthoredPolicy) (level : Level) :
    List Diagnostic :=
  validateName policy.name ++ validateMatch policy.match_ ++
    (if policy.checkpoint ≠ .runCreate && !policy.match_.triggerKinds.isEmpty then
      [.about "match.trigger_kinds".toList
        ("`trigger_kinds` is matched at `run.create` only, not at ".toList ++
          ticked policy.checkpoint.text)]
    else []) ++
    (compileBody host policy.checkpoint level policy.body).1

def compile (host : PolicyHost) (policy : AuthoredPolicy) (level : Level) :
    Except (List Diagnostic) PolicyIr :=
  if (compileFindings host policy level).isEmpty then
    .ok
      { policyId := []
        version := 0
        contentHash := host.contentHash policy
        name := policy.name
        level := level
        checkpoint := policy.checkpoint
        match_ := policy.match_
        mode := policy.mode
        rules := (compileBody host policy.checkpoint level policy.body).2 }
  else .error (compileFindings host policy level)

inductive PolicyScope where
  | org (org : Text)
  | project (org project : Text)

def PolicyScope.level : PolicyScope → Level
  | .org _ => .org
  | .project _ _ => .project

structure StoredPolicy where
  id : Text
  scope : PolicyScope
  name : Text
  version : ℕ
  body : AuthoredPolicy
  contentHash : Text

def StoredPolicy.compile (host : PolicyHost) (p : StoredPolicy) :
    Except (List Diagnostic) PolicyIr :=
  (Scarab.Policy.compile host p.body p.scope.level).map fun ir =>
    { ir with policyId := p.id, version := p.version }

/-- What a compile keeps of the stored Policy. -/
theorem compile_kept {host : PolicyHost} {p : StoredPolicy} {ir : PolicyIr}
    (h : p.compile host = .ok ir) :
    ir.policyId = p.id ∧ ir.version = p.version ∧ ir.level = p.scope.level ∧
      ir.checkpoint = p.body.checkpoint ∧ ir.match_ = p.body.match_ ∧ ir.mode = p.body.mode ∧
      ir.rules = (compileBody host p.body.checkpoint p.scope.level p.body.body).2 := by
  unfold StoredPolicy.compile Scarab.Policy.compile at h
  split_ifs at h
  · obtain rfl := Except.ok.inj h
    exact ⟨rfl, rfl, rfl, rfl, rfl, rfl, rfl⟩
  · cases h

end Scarab.Policy
