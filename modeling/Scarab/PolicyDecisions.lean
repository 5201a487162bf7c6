import Scarab.PipelineFiles
import Scarab.Policies

/-!
# The evaluator

Every Policy whose checkpoint and selector fit is evaluated; any enforced deny or error denies, and
audit-mode hits change nothing.
-/
namespace Scarab.Policy

open Scarab.Pipeline Scarab.Project

structure MatchContext where
  project : Text
  environment : Option Text
  triggerKind : TriggerKind

/-- The scan of a glob: what is left of the pattern and of the value, and after a `*` the pattern
behind it and the value it was tried at. -/
def globMatchesScan (g v : Text) (star : Option (Text × Text)) : Bool :=
  match v with
  | [] => g.all (· = '*')
  | d :: v' =>
      match g with
      | c :: g' =>
          if c = '*' then globMatchesScan g' (d :: v') (some (g', d :: v'))
          else if c = d then globMatchesScan g' v' star
          else
            match star with
            | some (sg, _ :: sv) => globMatchesScan sg sv (some (sg, sv))
            | some (sg, []) => sg.all (· = '*')
            | none => false
      | [] =>
          match star with
          | some (sg, _ :: sv) => globMatchesScan sg sv (some (sg, sv))
          | some (sg, []) => sg.all (· = '*')
          | none => false
termination_by (globRoom v star, g.length + v.length)
decreasing_by
  all_goals simp only [globRoom, Prod.lex_def, List.length_cons]
  · cases star <;> simp
    omega
  · cases star
    · simp
    · simp
      omega
  · simp
  · simp

def globMatches (glob value : Text) : Bool := globMatchesScan glob value none

/-- A pattern that ends in `*` matches by what stands before it. -/
def patternMatches (pattern value : Text) : Bool :=
  if pattern.getLast? = some '*' then pattern.dropLast.isPrefixOf value else pattern = value

def matches_ (m : Match) (ctx : MatchContext) : Bool :=
  let any := fun (globs : List Text) v => globs.any fun g => globMatches g v
  (m.projects.isEmpty || any m.projects ctx.project) && !any m.exceptProjects ctx.project &&
    (m.environments.isEmpty || ctx.environment.any fun e => any m.environments e) &&
    (m.triggerKinds.isEmpty || ctx.triggerKind ∈ m.triggerKinds)

structure OriginRef where
  kind : Text
  name : Text
  source : Option Text

def OriginRef.key (o : OriginRef) : Text := o.source.getD o.name

def OriginRef.describe (o : OriginRef) : Text :=
  if o.kind = "file".toList then "file ".toList ++ ticked o.name
  else if o.kind = "plugin".toList then "plugin ".toList ++ ticked o.name
  else "library ".toList ++ ticked o.key

/-- A step or gate of the input, as messages name it. -/
structure InputUnit where
  what : Text
  id : Text
  origins : List OriginRef

def jsonField (name : Text) : Json → Option Json
  | .object fields => (fields.find? fun f => f.1 = name).map (·.2)
  | _ => none

def jsonText : Json → Option Text
  | .string s => some s
  | _ => none

def jsonItems : Json → Option (List Json)
  | .array items => some items
  | _ => none

/-- A text that must be there. -/
def requiredText (what : Text) (v : Option Json) : Except Text Text :=
  match v.bind jsonText with
  | some t => .ok t
  | none => .error what

def originRefs (at_ : Text) : ℕ → List Json → Except Text (List OriginRef)
  | _, [] => .ok []
  | j, o :: os => do
      let kind ← requiredText (ticked (indexed (at_ ++ ".origin".toList) j) ++ " has no kind".toList)
        (jsonField "kind".toList o)
      let name ← requiredText (ticked (indexed (at_ ++ ".origin".toList) j) ++ " has no name".toList)
        (jsonField "name".toList o)
      let rest ← originRefs at_ (j + 1) os
      return ⟨kind, name, (jsonField "source".toList o).bind jsonText⟩ :: rest

def unitOrigins (at_ : Text) : Option Json → Except Text (List OriginRef)
  | none | some .null => .ok []
  | some (.array chain) => originRefs at_ 0 chain
  | some _ => .error (ticked (at_ ++ ".origin".toList) ++ " is not a list".toList)

def unitsOf (list what : Text) : ℕ → List Json → Except Text (List InputUnit)
  | _, [] => .ok []
  | i, item :: items => do
      let id ← requiredText (ticked (indexed list i) ++ " has no id".toList)
        (jsonField "id".toList item)
      let origins ← unitOrigins (indexed list i) (jsonField "origin".toList item)
      let rest ← unitsOf list what (i + 1) items
      return ⟨what, id, origins⟩ :: rest

def listUnits (input : Json) (list what : Text) : Except Text (List InputUnit) :=
  match (jsonField list input).bind jsonItems with
  | none => .error ("the input has no ".toList ++ ticked list ++ " list".toList)
  | some items => unitsOf list what 0 items

/-- The steps of an input, then its gates. -/
def units (input : Json) : Except Text (List InputUnit) := do
  let steps ← listUnits input "steps".toList "Step".toList
  let gates ← listUnits input "gates".toList "Gate".toList
  return steps ++ gates

def maxTypedMessages : ℕ := 10

/-- The first messages, and how many more there are. -/
def capMessages (messages : List Text) (more : Text) : List Text :=
  if messages.length > maxTypedMessages then
    messages.take maxTypedMessages ++
      ["…and ".toList ++ natText (messages.length - maxTypedMessages) ++ more]
  else messages

def TypedPredicate.offends (t : TypedPredicate) (what : Text) (o : OriginRef) : Bool :=
  match t with
  | .librariesAllowed sources =>
      (o.kind = "library".toList || o.kind = "file".toList) &&
        !sources.any fun p => patternMatches p o.key
  | .librariesBlocked sources => sources.any fun p => patternMatches p o.key
  | .pluginsAllowed installations =>
      what = "Gate".toList && o.kind = "plugin".toList && o.name ∉ installations

def TypedPredicate.why : TypedPredicate → Text
  | .librariesAllowed _ => "which is not in the libraries allowed here".toList
  | .librariesBlocked _ => "which is blocked here".toList
  | .pluginsAllowed _ => "which is not in the plugins whose gates may run here".toList

/-- The deny messages of a typed predicate; none when it holds. -/
def typed (t : TypedPredicate) (input : Json) : Except Text (List Text) := do
  let us ← units input
  let messages := us.filterMap fun u =>
    (u.origins.find? (t.offends u.what)).map fun o =>
      u.what ++ ' ' :: ticked u.id ++ " comes from ".toList ++ o.describe ++ ", ".toList ++ t.why ++ ['.']
  return capMessages messages " more Steps or gates.".toList

def resultOf (p : PolicyIr) (outcome : PolicyOutcome) : PolicyResult :=
  ⟨p.policyId, p.version, p.name, p.level, p.mode, outcome⟩

section evaluation

variable (host : PolicyHost) (checkpoint : Checkpoint) (version : ℕ) (input : Json)

def bindInput : Except Text host.Context :=
  match schemaFor host checkpoint version with
  | none => .error ("no input schema for ".toList ++ checkpoint.text ++ " version ".toList ++
      natText version)
  | some schema =>
      (host.bind schema input).mapError fun e => "input does not match the schema: ".toList ++ e

/-- The context, bound on first use and kept for every later rule. -/
def celContext (slot : Option (Except Text host.Context)) :
    Except Text host.Context × Option (Except Text host.Context) :=
  let bound := slot.getD (bindInput host checkpoint version input)
  (bound, some bound)

def predicateHit (bound : Except Text host.Context) (rule : RuleIr) : Except Text (List Text) :=
  match rule.predicate with
  | .cel c => do
      let context ← bound
      let hit ← host.evaluateWhen c.source context
      return if hit then [rule.message] else []
  | .typed t => do
      let _ ← bound
      typed t input

/-- What rules found: messages of those that hold and of those that could not be evaluated. -/
structure Findings where
  denies : List Text
  errors : List Text

def Findings.add (a b : Findings) : Findings := ⟨a.denies ++ b.denies, a.errors ++ b.errors⟩

def evaluateRule (slot : Option (Except Text host.Context)) (i : ℕ) (rule : RuleIr) :
    Findings × Option (Except Text host.Context) :=
  if !checkpoint.allows rule.effect || rule.effect ≠ .deny then
    (⟨[], ["rule ".toList ++ natText i ++ ": ".toList ++ ticked rule.effect.name ++
      " is not evaluated at ".toList ++ checkpoint.text]⟩, slot)
  else
    let context := celContext host checkpoint version input slot
    match predicateHit host input context.1 rule with
    | .ok messages => (⟨messages, []⟩, context.2)
    | .error e =>
        (⟨[], [rule.message ++ " (the rule could not be evaluated, so it denies: ".toList ++ e ++ [')']]⟩,
          context.2)

def evaluateRules (slot : Option (Except Text host.Context)) :
    ℕ → List RuleIr → Findings × Option (Except Text host.Context)
  | _, [] => (⟨[], []⟩, slot)
  | i, rule :: rules =>
      let first := evaluateRule host checkpoint version input slot i rule
      let rest := evaluateRules first.2 (i + 1) rules
      (first.1.add rest.1, rest.2)

def Findings.outcome (f : Findings) (mode : Mode) : PolicyOutcome :=
  if !f.errors.isEmpty then .error (joinText "; ".toList (f.errors ++ f.denies))
  else if f.denies.isEmpty then .passed
  else if mode = .audit then .wouldDeny f.denies
  else .denied f.denies

variable (ctx : MatchContext)

def evaluateOne (slot : Option (Except Text host.Context)) (p : PolicyIr) :
    PolicyResult × Option (Except Text host.Context) :=
  if matches_ p.match_ ctx then
    let found := evaluateRules host checkpoint version input slot 0 p.rules
    (resultOf p (found.1.outcome p.mode), found.2)
  else (resultOf p .notMatched, slot)

def evaluateAll (slot : Option (Except Text host.Context)) : List PolicyIr → List PolicyResult
  | [] => []
  | p :: ps =>
      let first := evaluateOne host checkpoint version input ctx slot p
      first.1 :: evaluateAll first.2 ps

end evaluation

inductive DecisionOutcome where
  | allow
  | deny (messages : List Text)

structure PolicyDecision where
  checkpoint : Checkpoint
  schemaVersion : ℕ
  input : Json
  policySetDigest : Text
  results : List PolicyResult
  outcome : DecisionOutcome

def PolicyDecision.isDenied (d : PolicyDecision) : Bool :=
  match d.outcome with
  | .allow => false
  | .deny _ => true

def digestLine (p : PolicyIr) : Text :=
  p.policyId ++ '@' :: natText p.version ++ ':' :: p.contentHash

def policySetDigest (host : PolicyHost) (checkpoint : Checkpoint) (policies : List PolicyIr) : Text :=
  host.sha256Hex (joinText ['\n']
    (EffectiveProtection.sortTexts
      ((policies.filter fun p => p.checkpoint = checkpoint).map digestLine)))

/-- What one result adds to the messages of a deny. -/
def denyMessages (r : PolicyResult) : List Text :=
  if r.mode = .enforce then
    match r.outcome with
    | .denied messages => messages
    | .error message => [message]
    | _ => []
  else []

def combine (results : List PolicyResult) : DecisionOutcome :=
  let messages := results.flatMap denyMessages
  if messages.isEmpty then .allow else .deny messages

/-- A matched Policy that is not evaluated is an error. -/
def unevaluated (ctx : MatchContext) (message : Text) (p : PolicyIr) : PolicyResult :=
  resultOf p (if matches_ p.match_ ctx then .error message else .notMatched)

/-- `thread` is why the CEL thread did not run, if it did not. -/
def evaluate (host : PolicyHost) (thread : Option Text) (checkpoint : Checkpoint) (version : ℕ)
    (input : Json) (ctx : MatchContext) (policies : List PolicyIr) : PolicyDecision :=
  let at_ := policies.filter fun p => p.checkpoint = checkpoint
  let results := match thread with
    | none => evaluateAll host checkpoint version input ctx none at_
    | some e => at_.map fun p =>
        unevaluated ctx ("policy ".toList ++ ticked p.name ++ " could not be evaluated: ".toList ++ e) p
  ⟨checkpoint, version, input, policySetDigest host checkpoint policies, results, combine results⟩

structure PluginGate where
  gate : Text
  plugin : Text

/-- The gates of a pipeline that come from a plugin. -/
def pluginGates (ir : PipelineIr) : List PluginGate :=
  (ir.steps.filter StepSpec.isGate).flatMap fun s =>
    (s.origin.filter fun o => o.kind = .plugin).map fun o => ⟨s.id, o.name⟩

def RuleIr.installations (r : RuleIr) : List Text :=
  match r.predicate with
  | .typed (.pluginsAllowed installations) => installations
  | _ => []

/-- The installations the org lists for this consultation. -/
def listedPlugins (ctx : MatchContext) (policies : List PolicyIr) : List Text :=
  (policies.filter fun p => p.level = .org && p.mode = .enforce && matches_ p.match_ ctx).flatMap
    fun p => p.rules.flatMap RuleIr.installations

def unlistedMessage (g : PluginGate) : Text :=
  "Gate ".toList ++ ticked g.gate ++ " comes from plugin ".toList ++ ticked g.plugin ++
    ", which no org-level plugins_allowed setting lists; no plugin's gates run until an org admin lists the plugin.".toList

/-- `Vec::dedup`: equal neighbours become one. -/
def dedupTexts : List Text → List Text
  | a :: b :: l => if a = b then dedupTexts (b :: l) else a :: dedupTexts (b :: l)
  | l => l

def pluginDefaultOutcome (gates : List PluginGate) (unbuilt : Option Text) (listed : List Text) :
    PolicyOutcome :=
  let messages := capMessages
    (dedupTexts ((gates.filter fun g => g.plugin ∉ listed).map unlistedMessage))
    " more from unlisted plugins.".toList
  if messages.isEmpty then .passed
  else .denied (messages ++ (unbuilt.map fun reason =>
    "The Run's input could not be built either, so no Policy checked it: ".toList ++ reason).toList)

def pluginDefaultResult (outcome : PolicyOutcome) : PolicyResult :=
  ⟨"builtin:plugins_allowed".toList, 0, "plugins-allowed-default".toList, .org, .enforce, outcome⟩

def pluginDefault (gates : Except Text (List PluginGate)) (unbuilt : Option Text)
    (ctx : MatchContext) (policies : List PolicyIr) : Option PolicyResult :=
  match gates with
  | .error e => some (pluginDefaultResult (.error
      ("the plugin default could not be evaluated, so it denies: ".toList ++ e)))
  | .ok [] => none
  | .ok gates => some (pluginDefaultResult (pluginDefaultOutcome gates unbuilt (listedPlugins ctx policies)))

def pluginsClosedDefault (input : Json) (ctx : MatchContext) (policies : List PolicyIr) :
    Option PolicyResult :=
  match units input with
  | .error e =>
      -- Fail closed only where the input may hold a plugin gate.
      if ((jsonField "gates".toList input).bind jsonItems).any List.isEmpty then none
      else pluginDefault (.error e) none ctx policies
  | .ok us =>
      pluginDefault (.ok ((us.filter fun u => u.what = "Gate".toList).flatMap fun u =>
        (u.origins.filter fun o => o.kind = "plugin".toList).map fun o => ⟨u.id, o.name⟩)) none ctx
        policies

def compileMessage (p : StoredPolicy) (ds : List Diagnostic) : Text :=
  "version ".toList ++ natText p.version ++ " of this policy no longer compiles, so it denies: ".toList ++
    joinText "; ".toList (ds.map Diagnostic.text)

/-- What the digest and the result need of a Policy that does not compile. -/
def stubOf (checkpoint : Checkpoint) (p : StoredPolicy) : PolicyIr :=
  { policyId := p.id
    version := p.version
    contentHash := p.contentHash
    name := p.name
    level := p.scope.level
    checkpoint := checkpoint
    match_ := p.body.match_
    mode := p.body.mode
    rules := [] }

/-- Results and digest set in the order of the stored Policies; the compiled ones take the
evaluated results one by one. `none` where these run out, which the code takes to be impossible. -/
def placeResults (host : PolicyHost) (checkpoint : Checkpoint) (ctx : MatchContext) :
    List StoredPolicy → List PolicyResult → Option (List PolicyResult × List PolicyIr)
  | [], _ => some ([], [])
  | p :: ps, evaluated =>
      match p.compile host with
      | .ok ir =>
          match evaluated with
          | [] => none
          | r :: evaluated =>
              (placeResults host checkpoint ctx ps evaluated).map fun rest =>
                (r :: rest.1, ir :: rest.2)
      | .error ds =>
          let stub := stubOf checkpoint p
          (placeResults host checkpoint ctx ps evaluated).map fun rest =>
            (unevaluated ctx (compileMessage p ds) stub :: rest.1, stub :: rest.2)

/-- The plugin default at Run creation. With no pipeline and no input nothing names a gate. -/
def defaultResult (checkpoint : Checkpoint) (input : Except Text Json)
    (gates : Option (List PluginGate)) (ctx : MatchContext) (policies : List PolicyIr) :
    Option PolicyResult :=
  if checkpoint = .runCreate then
    match gates, input with
    | some gates, .ok _ => pluginDefault (.ok gates) none ctx policies
    | some gates, .error reason => pluginDefault (.ok gates) (some reason) ctx policies
    | none, .ok v => pluginsClosedDefault v ctx policies
    | none, .error _ => none
  else none

/-- The results of the Policies that compile, over an input or for want of one. -/
def evaluateCompiled (host : PolicyHost) (thread : Option Text) (checkpoint : Checkpoint)
    (version : ℕ) (ctx : MatchContext) (irs : List PolicyIr) : Except Text Json → List PolicyResult
  | .ok v => (evaluate host thread checkpoint version v ctx irs).results
  | .error reason => irs.map (unevaluated ctx reason)

def evaluateWithBuiltins (host : PolicyHost) (thread : Option Text) (checkpoint : Checkpoint)
    (version : ℕ) (input : Except Text Json) (gates : Option (List PluginGate)) (ctx : MatchContext)
    (stored : List StoredPolicy) (builtins : List PolicyResult) : Option PolicyDecision :=
  let at_ := stored.filter fun p => p.body.checkpoint = checkpoint
  let irs := at_.filterMap fun p => (p.compile host).toOption
  let evaluated := evaluateCompiled host thread checkpoint version ctx irs input
  (placeResults host checkpoint ctx at_ evaluated).map fun placed =>
    let results := builtins ++ placed.1 ++
      (defaultResult checkpoint input gates ctx placed.2).toList
    ⟨checkpoint, version, input.toOption.getD .null,
      policySetDigest host checkpoint placed.2, results, combine results⟩

end Scarab.Policy
