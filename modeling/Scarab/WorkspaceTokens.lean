import Scarab.TextReplace
import Scarab.BlobAllowlist

/-!
# Workspace tokens

A token carries its claims as one signed line of fields. Authored step names may hold the
separator, so the fence's fields are escaped, and what is verified is what was minted.
-/
namespace Scarab.WorkspaceToken
open Depot BlobAuthz

inductive WorkspaceTokenError where
  | malformed
  | unknownVersion
  | badSignature
  | expired (exp now : ℤ)
  deriving DecidableEq, Repr

/-- The base64 crate's `URL_SAFE_NO_PAD` engine. -/
structure Base64Url where
  encode : Bytes → Text
  decode : Text → Option Bytes

/-- Decoding inverts encoding, whose alphabet has no dot. -/
structure Base64Url.Lawful (engine : Base64Url) : Prop where
  decode_encode : ∀ bytes, engine.decode (engine.encode bytes) = some bytes
  noDot : ∀ bytes, '.' ∉ engine.encode bytes

/-- HMAC-SHA256 of a message under a secret. -/
abbrev Hmac := Bytes → Bytes → Bytes

def sigPrefix : Text := ['s', 'h', 'a', '2', '5', '6', '=']

def signHex (hmac : Hmac) (secret body : Bytes) : Text :=
  sigPrefix ++ hexText (hmac secret body)

def stripPrefix (pre t : Text) : Option Text :=
  if pre.isPrefixOf t then some (t.drop pre.length) else none

def verifySignature (hmac : Hmac) (secret body : Bytes) (header : Text) : Bool :=
  (stripPrefix sigPrefix header).bind decodeHex = some (hmac secret body)

def wsv1 : Text := ['w', 's', 'v', '1']

def Scope.asStr : Scope → Text
  | .read => ['r', 'e', 'a', 'd']
  | .browse => ['b', 'r', 'o', 'w', 's', 'e']

def Scope.parse (t : Text) : Option Scope :=
  if t = ['r', 'e', 'a', 'd'] then some .read
  else if t = ['b', 'r', 'o', 'w', 's', 'e'] then some .browse
  else none

def esc (field : Text) : Text :=
  replaceText ['|'] ['%', '7', 'C'] (replaceText ['%'] ['%', '2', '5'] field)

def unesc (field : Text) : Text :=
  replaceText ['%', '2', '5'] ['%'] (replaceText ['%', '7', 'C'] ['|'] field)

def joinComma (roots : List Text) : Text := [','].intercalate roots

/-- An eighth field holds the cache roots, if there are any. -/
def message (claims : WorkspaceClaims) : Text :=
  let msg := ['|'].intercalate [wsv1, esc claims.fence.run, esc claims.fence.step,
    esc claims.fence.attempt, intText claims.exp, Scope.asStr claims.scope,
    joinComma claims.roots]
  if claims.cacheRoots = [] then msg else msg ++ '|' :: joinComma claims.cacheRoots

def parseList (raw : Text) : List Text := (raw.splitOn ',').filter (· ≠ [])

def parseMessage (msg : Text) : Except WorkspaceTokenError WorkspaceClaims :=
  match msg.splitOn '|' with
  | version :: run :: step :: attempt :: exp :: scope :: roots :: more =>
      if 1 < more.length ∨ version ≠ wsv1 then .error .malformed
      else
        match readI64 exp, Scope.parse scope with
        | some exp, some scope =>
            .ok ⟨⟨unesc run, unesc step, unesc attempt⟩, exp, scope, parseList roots,
              (more.head?.map parseList).getD []⟩
        | _, _ => .error .malformed
  | _ => .error .malformed

def mint (engine : Base64Url) (hmac : Hmac) (secret : Bytes) (claims : WorkspaceClaims) : Text :=
  let msg := utf8Bytes (message claims)
  wsv1 ++ '.' :: (engine.encode msg ++ '.' :: signHex hmac secret msg)

/-- The signature is checked before the expiry. -/
def verify (engine : Base64Url) (hmac : Hmac) (secret : Bytes) (token : Text) (now : ℤ) :
    Except WorkspaceTokenError WorkspaceClaims :=
  match token.splitOn '.' with
  | [version, encoded, sig] =>
      if version ≠ wsv1 then .error .unknownVersion
      else
        match (engine.decode encoded).bind fromUtf8 with
        | none => .error .malformed
        | some msg =>
            if verifySignature hmac secret (utf8Bytes msg) sig then do
              let claims ← parseMessage msg
              if claims.exp < now then .error (.expired claims.exp now) else .ok claims
            else .error .badSignature
  | _ => .error .malformed

/-- How a character is written. -/
def escChar (c : Char) : Text :=
  if c = '%' then ['%', '2', '5'] else if c = '|' then ['%', '7', 'C'] else [c]

theorem esc_eq (t : Text) : esc t = t.flatMap escChar := by
  rw [esc, replaceText_char, replaceText_char, List.flatMap_assoc]
  congr 1
  funext c
  by_cases hpercent : c = '%'
  · simp [escChar, hpercent]
  · simp [escChar, hpercent]

theorem bar_notMem_esc (t : Text) : '|' ∉ esc t := by
  rw [esc_eq, List.mem_flatMap]
  rintro ⟨c, -, hc⟩
  rw [escChar] at hc
  split_ifs at hc with hpercent hbar
  · simp at hc
  · simp at hc
  · exact hbar (List.mem_singleton.mp hc).symm

/-- Only the written bars are turned back at first. -/
theorem unbar_esc (t : Text) :
    replaceText ['%', '7', 'C'] ['|'] (t.flatMap escChar) =
      t.flatMap fun c => if c = '%' then ['%', '2', '5'] else [c] := by
  induction t with
  | nil => rfl
  | cons c t ih =>
    rw [List.flatMap_cons, List.flatMap_cons, ← ih]
    generalize t.flatMap escChar = rest
    by_cases hpercent : c = '%'
    · have hone : List.isPrefixOf ['%', '7', 'C'] ('%' :: '2' :: '5' :: rest) = false := rfl
      have htwo : List.isPrefixOf ['%', '7', 'C'] ('2' :: '5' :: rest) = false := rfl
      have hthree : List.isPrefixOf ['%', '7', 'C'] ('5' :: rest) = false := rfl
      subst hpercent
      change replaceText _ _ ('%' :: '2' :: '5' :: rest) = '%' :: '2' :: '5' :: _
      rw [replaceText_step hone, replaceText_step htwo, replaceText_step hthree]
      rfl
    · by_cases hbar : c = '|'
      · subst hbar
        exact replaceText_match '%' ['7', 'C'] ['|'] rest
      · have hno : List.isPrefixOf ['%', '7', 'C'] (c :: rest) = false := by
          simp [List.isPrefixOf, Ne.symm hpercent]
        simp only [escChar, if_neg hpercent, if_neg hbar]
        exact replaceText_step hno

theorem unpercent (t : Text) :
    replaceText ['%', '2', '5'] ['%'] (t.flatMap fun c => if c = '%' then ['%', '2', '5'] else [c]) =
      t := by
  induction t with
  | nil => rfl
  | cons c t ih =>
    rw [List.flatMap_cons]
    nth_rewrite 2 [← ih]
    generalize t.flatMap _ = rest
    by_cases hpercent : c = '%'
    · subst hpercent
      exact replaceText_match '%' ['2', '5'] ['%'] rest
    · have hno : List.isPrefixOf ['%', '2', '5'] (c :: rest) = false := by
        simp [List.isPrefixOf, Ne.symm hpercent]
      simp only [if_neg hpercent]
      exact replaceText_step hno

theorem unesc_esc (t : Text) : unesc (esc t) = t := by
  rw [unesc, esc_eq, unbar_esc, unpercent]

/-- Claims whose expiry is an `i64` and whose roots are as hashes are. -/
structure WellFormed (c : WorkspaceClaims) : Prop where
  exp : InI64 c.exp
  roots : ∀ r ∈ c.roots, r ≠ [] ∧ ',' ∉ r ∧ '|' ∉ r
  cacheRoots : ∀ r ∈ c.cacheRoots, r ≠ [] ∧ ',' ∉ r ∧ '|' ∉ r

theorem parseList_joinComma {roots : List Text}
    (h : ∀ r ∈ roots, r ≠ [] ∧ ',' ∉ r ∧ '|' ∉ r) : parseList (joinComma roots) = roots := by
  by_cases hnil : roots = []
  · subst hnil
    rfl
  · have hsplit : (joinComma roots).splitOn ',' = roots :=
      List.splitOn_intercalate ',' (fun r hr => (h r hr).2.1) hnil
    rw [parseList, hsplit]
    exact List.filter_eq_self.mpr fun r hr => decide_eq_true (h r hr).1

theorem bar_notMem_joinComma {roots : List Text}
    (h : ∀ r ∈ roots, r ≠ [] ∧ ',' ∉ r ∧ '|' ∉ r) : '|' ∉ joinComma roots := by
  induction roots with
  | nil => simp [joinComma]
  | cons r roots ih =>
    have hrest := ih fun x hx => h x (List.mem_cons_of_mem _ hx)
    have hhead := (h r List.mem_cons_self).2.2
    cases roots with
    | nil => simpa [joinComma] using hhead
    | cons r' roots =>
      rw [joinComma, List.intercalate_cons_cons]
      simp only [List.mem_append, not_or]
      exact ⟨⟨hhead, by decide⟩, hrest⟩

theorem Scope.parse_asStr (s : Scope) : Scope.parse (Scope.asStr s) = some s := by
  cases s <;> rfl

theorem bar_notMem_asStr (s : Scope) : '|' ∉ Scope.asStr s := by
  cases s <;> decide

theorem bar_notMem_intText (n : ℤ) : '|' ∉ intText n := by
  intro h
  rcases mem_intText h with h | h <;> exact absurd h (by decide)

/-- The fields a message is split into. -/
def fields (c : WorkspaceClaims) : List Text :=
  [wsv1, esc c.fence.run, esc c.fence.step, esc c.fence.attempt, intText c.exp,
    Scope.asStr c.scope, joinComma c.roots] ++
    if c.cacheRoots = [] then [] else [joinComma c.cacheRoots]

theorem message_eq (c : WorkspaceClaims) : message c = ['|'].intercalate (fields c) := by
  rw [message, fields]
  split
  · simp
  · simp [List.intercalate_cons_cons]

theorem splitOn_message {c : WorkspaceClaims} (hc : WellFormed c) :
    (message c).splitOn '|' = fields c := by
  rw [message_eq]
  apply List.splitOn_intercalate
  · intro field hfield
    rcases List.mem_append.mp hfield with hfield | hfield
    · simp only [List.mem_cons, List.not_mem_nil, or_false] at hfield
      rcases hfield with rfl | rfl | rfl | rfl | rfl | rfl | rfl
      · decide
      · exact bar_notMem_esc _
      · exact bar_notMem_esc _
      · exact bar_notMem_esc _
      · exact bar_notMem_intText _
      · exact bar_notMem_asStr _
      · exact bar_notMem_joinComma hc.roots
    · split at hfield
      · cases hfield
      · rw [List.mem_singleton.mp hfield]
        exact bar_notMem_joinComma hc.cacheRoots
  · simp [fields]

theorem parseMessage_message {c : WorkspaceClaims} (hc : WellFormed c) :
    parseMessage (message c) = .ok c := by
  have hroots := parseList_joinComma hc.roots
  have hcache := parseList_joinComma hc.cacheRoots
  have hexp := readI64_intText hc.exp
  rw [parseMessage, splitOn_message hc, fields]
  obtain ⟨fence, exp, scope, roots, cacheRoots⟩ := c
  by_cases hnil : cacheRoots = []
  · subst hnil
    simp [hexp, Scope.parse_asStr, unesc_esc, hroots]
  · simp [hnil, hexp, Scope.parse_asStr, unesc_esc, hroots, hcache]

/-- No two claims are written the same. -/
theorem message_injOn {c c' : WorkspaceClaims} (hc : WellFormed c) (hc' : WellFormed c')
    (h : message c = message c') : c = c' := by
  have hparsed := parseMessage_message hc
  rw [h, parseMessage_message hc'] at hparsed
  exact (Except.ok.inj hparsed).symm

variable {engine : Base64Url} {hmac : Hmac} {secret : Bytes}

theorem stripPrefix_append (pre t : Text) : stripPrefix pre (pre ++ t) = some t := by
  have hprefix : pre.isPrefixOf (pre ++ t) = true :=
    List.isPrefixOf_iff_prefix.mpr (List.prefix_append pre t)
  rw [stripPrefix, if_pos hprefix, List.drop_left]

theorem verifySignature_signHex (body : Bytes) :
    verifySignature hmac secret body (signHex hmac secret body) = true := by
  have hread : (stripPrefix sigPrefix (signHex hmac secret body)).bind decodeHex =
      some (hmac secret body) := by
    rw [signHex, stripPrefix_append, Option.bind_some, decodeHex_hexText]
  exact decide_eq_true hread

theorem dot_notMem_signHex (body : Bytes) : '.' ∉ signHex hmac secret body := by
  intro h
  rcases List.mem_append.mp h with h | h
  · exact absurd h (by decide)
  · obtain ⟨n, hn, hdigit⟩ := mem_hexText h
    have hdigits : ∀ k : Fin 16, '.' ≠ Nat.digitChar k := by decide
    exact hdigits ⟨n, hn⟩ hdigit

theorem splitOn_mint (hengine : engine.Lawful) (c : WorkspaceClaims) :
    (mint engine hmac secret c).splitOn '.' = [wsv1, engine.encode (utf8Bytes (message c)),
      signHex hmac secret (utf8Bytes (message c))] := by
  have hversion : '.' ∉ wsv1 := by decide
  rw [mint, List.splitOn_append_cons_self_of_not_mem hversion,
    List.splitOn_append_cons_self_of_not_mem (hengine.noDot _),
    List.splitOn_eq_singleton (dot_notMem_signHex _)]

theorem verify_mint (hengine : engine.Lawful) {c : WorkspaceClaims} (hc : WellFormed c) (now : ℤ) :
    verify engine hmac secret (mint engine hmac secret c) now =
      if now ≤ c.exp then .ok c else .error (.expired c.exp now) := by
  have hdecode : (engine.decode (engine.encode (utf8Bytes (message c)))).bind fromUtf8 =
      some (message c) := by
    rw [hengine.decode_encode, Option.bind_some, fromUtf8_utf8Bytes]
  rw [verify, splitOn_mint hengine]
  simp only [ne_eq, not_true_eq_false, if_false, hdecode, verifySignature_signHex, if_true,
    parseMessage_message hc]
  change (if c.exp < now then _ else _) = _
  by_cases hnow : now ≤ c.exp
  · rw [if_pos hnow, if_neg (by omega)]
  · rw [if_neg hnow, if_pos (by omega)]

/-- A minted token verifies to its claims until they expire, and no two claims share a message. -/
theorem workspace_tokens_faithful (engine : Base64Url) (hmac : Hmac) (hengine : engine.Lawful) :
    (∀ secret c now, WellFormed c → verify engine hmac secret (mint engine hmac secret c) now =
      if now ≤ c.exp then .ok c else .error (.expired c.exp now)) ∧
    ∀ c c', WellFormed c → WellFormed c' → message c = message c' → c = c' := by
  constructor
  · intro secret c now hc
    exact verify_mint hengine hc now
  · intro c c' hc hc' h
    exact message_injOn hc hc' h

/-- Names that hold the separator and its escape. -/
def sampleClaims : WorkspaceClaims where
  fence := ⟨['r', '|', '1'], ['a', '%', '7', 'C', 'b'], ['1']⟩
  exp := 2000
  scope := .read
  roots := [['a', 'a', 'a']]
  cacheRoots := [['c', 'c', 'c']]

def sampleEncoded : Text :=
  "d3N2MXxyJTdDMXxhJTI1N0NifDF8MjAwMHxyZWFkfGFhYXxjY2M".toList

/-- The real encoding of the sample's message, and hex for all other bytes. -/
def sampleEngine : Base64Url where
  encode bytes :=
    if bytes = utf8Bytes (message sampleClaims) then sampleEncoded else 'x' :: hexText bytes
  decode t :=
    if t = sampleEncoded then some (utf8Bytes (message sampleClaims)) else decodeHex t.tail

/-- The real tag of the sample's message under the key `k`. -/
def sampleHmac : Hmac := fun _ _ =>
  [0x3f, 0xae, 0xc2, 0xaf, 0x7b, 0x12, 0x7c, 0xa7, 0xa7, 0x85, 0xbf, 0x8a, 0x8d, 0x96, 0xd0, 0x00,
    0x32, 0xd1, 0xcf, 0xc4, 0x74, 0x49, 0xf1, 0x27, 0x49, 0x51, 0xb8, 0xe8, 0x46, 0x0f, 0x55, 0xaa]

theorem sampleEngine_lawful : sampleEngine.Lawful := by
  constructor
  · intro bytes
    by_cases hsample : bytes = utf8Bytes (message sampleClaims)
    · simp [sampleEngine, hsample]
    · have hother : ∀ t : Text, 'x' :: t ≠ sampleEncoded := by
        intro t h
        exact absurd (List.cons.inj h).1 (by decide)
      simp only [sampleEngine, if_neg hsample, if_neg (hother _), List.tail_cons,
        decodeHex_hexText]
  · intro bytes h
    simp only [sampleEngine] at h
    split at h
    · exact absurd h (by decide)
    · rcases List.mem_cons.mp h with h | h
      · exact absurd h (by decide)
      · obtain ⟨n, hn, hdigit⟩ := mem_hexText h
        have hdigits : ∀ k : Fin 16, '.' ≠ Nat.digitChar k := by decide
        exact hdigits ⟨n, hn⟩ hdigit

theorem workspace_tokens_faithful_sample :
    message sampleClaims = "wsv1|r%7C1|a%257Cb|1|2000|read|aaa|ccc".toList ∧
    verify sampleEngine sampleHmac [0x6b] (mint sampleEngine sampleHmac
      [0x6b] sampleClaims) 2000 = .ok sampleClaims ∧
    verify sampleEngine sampleHmac [0x6b] (mint sampleEngine sampleHmac
      [0x6b] sampleClaims) 2001 = .error (.expired 2000 2001) := by
  have hformed : WellFormed sampleClaims :=
    ⟨⟨by decide, by decide⟩, by decide, by decide⟩
  obtain ⟨hverify, -⟩ := workspace_tokens_faithful sampleEngine sampleHmac sampleEngine_lawful
  refine ⟨by decide, ?_, ?_⟩
  · rw [hverify _ _ _ hformed]
    rfl
  · rw [hverify _ _ _ hformed]
    rfl

end Scarab.WorkspaceToken
