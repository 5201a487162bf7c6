import Scarab.OriginChain
import Scarab.RunCreateInput

/-!
# The length of an origin chain

The depth cap counts the libraries a step lies under. A plugin's gate is one link more, and is not
counted: under as many libraries as the cap allows it has a chain no policy input takes.
-/
namespace Scarab.Pipeline

variable {tc : Toolchain} {libs : Libraries}

/-- Some copy of a step, `depth` libraries below a file, invokes a plugin's gate. -/
inductive GateAt (tc : Toolchain) (libs : Libraries) : ℕ → List StepSpec → Prop
  | here {file : List StepSpec} {s : StepSpec} {link : OriginEntry} {x : Text} (hs : s ∈ file)
      (hgate : InvokesGate libs s link) (hx : x ∈ suffixes tc s.matrix) : GateAt tc libs 0 file
  | inside {depth : ℕ} {file : List StepSpec} {s : StepSpec} {link : OriginEntry} {lib : PipelineIr}
      {x : Text} (hs : s ∈ file) (hinvokes : Invokes tc libs s link lib)
      (hx : x ∈ suffixes tc s.matrix) (hgate : GateAt tc libs depth lib.steps) :
      GateAt tc libs (depth + 1) file

/-- A gate under `depth` libraries has one link for each and its own. -/
theorem GateAt.inlined {depth : ℕ} {file : List StepSpec} (h : GateAt tc libs depth file) :
    ∃ chain id s, InlinedFrom tc libs file chain id s ∧ chain.length = depth + 1 := by
  induction h with
  | here hs hgate hx => exact ⟨_, _, _, .gate hs hgate hx, rfl⟩
  | inside hs hinvokes hx _ ih =>
    obtain ⟨chain, id, s, hfrom, hlen⟩ := ih
    exact ⟨_, _, _, .library hs hinvokes hx hfrom, by simp [hlen]⟩

/-- With room for `room` libraries a chain is no longer than that, or ends in a gate at the very
bottom. -/
theorem Inlines.chain_length (room : ℕ) {level : Level} {stack : List Frame}
    {steps out : List StepSpec} (h : Inlines tc libs room level stack steps out)
    {chain : List OriginEntry} {id : Text} {s : StepSpec}
    (hfrom : InlinedFrom tc libs steps chain id s) :
    chain.length ≤ room ∨ (chain.length = room + 1 ∧ GateAt tc libs room steps) := by
  induction room generalizing level stack steps out chain id s with
  | zero =>
    cases hfrom with
    | written => exact .inl le_rfl
    | gate hs hgate hx => exact .inr ⟨rfl, .here hs hgate hx⟩
    | library hs hinvokes =>
      cases h with
      | mk _ _ _ hpieces =>
        obtain ⟨p, hp, rfl⟩ := List.mem_map.mp hs
        obtain ⟨_, _, _, _, hbelow, _⟩ := (hpieces p hp).library_of_invokes hinvokes
        cases hbelow
  | succ room ih =>
    cases hfrom with
    | written => exact .inl (Nat.zero_le _)
    | gate => exact .inl (by simp)
    | library hs hinvokes hx hinner =>
      cases h with
      | mk _ _ _ hpieces =>
        obtain ⟨p, hp, rfl⟩ := List.mem_map.mp hs
        obtain ⟨rel, inner, frames, resolved, hbelow, hresolved⟩ :=
          (hpieces p hp).library_of_invokes hinvokes
        cases hbelow
        rcases ih hresolved hinner with hle | ⟨hlen, hgate⟩
        · exact .inl (by simpa using hle)
        · exact .inr ⟨by simp [hlen], .inside hs hinvokes hx hgate⟩

end Scarab.Pipeline

namespace Scarab.RunCreate

open Pipeline

theorem originOf_iff {chain : List OriginEntry} {owner : Owner} :
    (∃ links, originOf chain owner = .ok links) ↔ chain.length ≤ maxOrigin := by
  unfold originOf capped
  split_ifs with h
  · simpa using h
  · simpa using h

/-- What compiles fits the policy input exactly when no plugin's gate lies under as many libraries
as the compiler nests. -/
theorem origin_fits_iff {tc : Toolchain} {libs : Libraries} {yaml : Text} {ir : PipelineIr}
    (h : compileLibs tc libs yaml = .ok ir) :
    ∃ authored, tc.parseYaml yaml = .ok authored ∧
      ((∀ n ∈ ir.steps, n.origin.length ≤ maxOrigin ∧
          ∀ owner, ∃ links, originOf n.origin owner = .ok links) ↔
        ¬ GateAt tc libs maxInvokeDepth authored.steps) := by
  obtain ⟨authored, inlined, hparse, -, hc⟩ := compileLibs_spec h
  refine ⟨authored, hparse, ?_⟩
  constructor
  · intro hall hgate
    obtain ⟨chain, id, s, hfrom, hlen⟩ := hgate.inlined
    obtain ⟨n, hn, rfl, -⟩ := (hc.origin_iff chain id).mpr ⟨s, hfrom⟩
    have hfits := (hall n hn).1
    unfold maxOrigin at hfits
    omega
  · intro hno n hn
    obtain ⟨s, hfrom⟩ := (hc.origin_iff n.origin n.id).mp ⟨n, hn, rfl, rfl⟩
    have hfits : n.origin.length ≤ maxOrigin := by
      rcases Inlines.chain_length maxInvokeDepth hc.inlines hfrom with hle | ⟨_, hgate⟩
      · exact hle
      · exact absurd hgate hno
    exact ⟨hfits, fun owner => originOf_iff.mpr hfits⟩

theorem origin_fits_iff_deploy :
    ∃ ir authored, compileLibs deployTools deployLibraries deployPipeline = .ok ir ∧
      deployTools.parseYaml deployPipeline = .ok authored ∧
      ((∀ n ∈ ir.steps, n.origin.length ≤ maxOrigin ∧
          ∀ owner, ∃ links, originOf n.origin owner = .ok links) ↔
        ¬ GateAt deployTools deployLibraries maxInvokeDepth authored.steps) := by
  have hok : (compileLibs deployTools deployLibraries deployPipeline).toOption.map
      (fun ir => ir.steps.length) = some 2 := by
    decide +kernel
  obtain ⟨ir, hir, -⟩ := exists_of_toOption_map hok
  obtain ⟨authored, hparse, hiff⟩ := origin_fits_iff hir
  exact ⟨ir, authored, hir, hparse, hiff⟩

-- Eight libraries, each in the next, and a plugin's gate in the last.

def nestedPath (digit : Char) : Text := ".scarab/lib/l".toList ++ [digit] ++ ".yaml".toList

def nestedTarget (digit : Char) : Text := "file:".toList ++ nestedPath digit

def nestedLibrary (digit : Char) (target : Text) : Text :=
  textLines ["kind: library"] ++ "steps: [\x7b id: s".toList ++ [digit] ++ ", invoke: ".toList ++ target ++
    (if digit = '7' then ", gate_expires_after: 3600".toList else []) ++ " \x7d]".toList

def nestedStep (digit : Char) (target : Text) : StepSpec :=
  { StepSpec.named ['s', digit] with
    invoke := some target
    gateExpiresAfter := if digit = '7' then some 3600 else none }

def nestedPipeline : Text :=
  "steps: [\x7b id: t, invoke: ".toList ++ nestedTarget '0' ++ " \x7d]".toList

/-- The libraries, each with its target and its hash. -/
def nestedFiles : List (Char × Text × Text) :=
  [('0', nestedTarget '1',
      addressText 0xd318ba53f6f4748c0e625b05ab72863bd36fe42bbf11515689854ada5be6c67a),
    ('1', nestedTarget '2',
      addressText 0x090950446aabe0a280892c110fdd4a0ccea777baf6dc6c751940ee335237e52c),
    ('2', nestedTarget '3',
      addressText 0x48c50fc465e605dee9e9e7fbfac73431cca16a3689c9e513255d4442693437e2),
    ('3', nestedTarget '4',
      addressText 0x4aae3baf791022c5b2b25d0d4654246ab6b14c6fae3999a204fb4c0cd96ce0a0),
    ('4', nestedTarget '5',
      addressText 0x0409034a4e7dc3b554434d4cd96f789731ac9b276f24aafa98b323b9584da5da),
    ('5', nestedTarget '6',
      addressText 0x1de4d2b05d7beea53b4b27987f61c68a5ed714c3baeb114141a194dd1884ddee),
    ('6', nestedTarget '7',
      addressText 0xee8547be657a24c103e0e34653bbb39d163a93cb344ace74ee5de9a3df423fd6),
    ('7', "plugin:acme/check".toList,
      addressText 0x3a6ee97453ad3c2cd8264ebac3613543cccc40acefb17eae498d7a67181ef5db)]

def nestedTools : Toolchain := tableToolchain []
  ((nestedPipeline,
      ⟨2, false, false, ⟨[], []⟩, [],
        [{ StepSpec.named ['t'] with invoke := some (nestedTarget '0') }]⟩,
      addressText 0x5011e8379c70e2ffb95b7181649461c49dcf8934910f7bb4c9f61faf4362b0ba) ::
    nestedFiles.map fun f =>
      (nestedLibrary f.1 f.2.1,
        ⟨2, true, false, ⟨[], []⟩, [], [nestedStep f.1 f.2.1]⟩,
        f.2.2))

def nestedLibraries : Libraries where
  files := SortedMap.ofList (nestedFiles.map fun f => (nestedPath f.1, nestedLibrary f.1 f.2.1))
  installed := ∅
  pluginGates := SortedMap.ofList
    [("acme/check".toList, ⟨⟨[], []⟩,
      addressText 0x9f86d081884c7d659a2feaa0c55ad015a3bf4f1b2b0b822cd15d6c15b0f00a08⟩)]

/-- The gate compiles with nine links, one more than an input takes. -/
theorem nested_gate_refused :
    ∃ ir, compileLibs nestedTools nestedLibraries nestedPipeline = .ok ir ∧
      ∃ n ∈ ir.steps, n.origin.length = 9 ∧
        originOf n.origin (.gate n.id) =
          .error (.capExceeded (.gate n.id) 9 "links in its origin chain".toList maxOrigin) := by
  have hok : (compileLibs nestedTools nestedLibraries nestedPipeline).toOption.map
      (fun ir => ir.steps.map (fun n => (n.id, n.origin.length))) =
      some [("t/s0/s1/s2/s3/s4/s5/s6/s7".toList, 9)] := by
    decide +kernel
  obtain ⟨ir, hir, hids⟩ := exists_of_toOption_map hok
  obtain ⟨n, hn⟩ : ∃ n, ir.steps = [n] := List.length_eq_one_iff.mp (by simpa using congrArg List.length hids)
  have hlen : n.origin.length = 9 := by simpa [hn] using congrArg (List.map Prod.snd) hids
  refine ⟨ir, hir, n, by simp [hn], hlen, ?_⟩
  unfold originOf capped
  rw [dif_neg (by rw [hlen]; decide), hlen]

end Scarab.RunCreate
