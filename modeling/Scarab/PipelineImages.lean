import Scarab.PipelineValues

/-!
# OCI image references

`[host[:port]/]path[:tag][@algorithm:digest]`, the form a rendered image is checked against.
-/
namespace Scarab.Pipeline

/-- The longest image name a registry accepts. -/
def maxImageName : ℕ := 255

def isLowerAlnum (c : Char) : Bool := c.isLower || c.isDigit

def isHexDigit (c : Char) : Bool :=
  c.isDigit || ('a' ≤ c && c ≤ 'f') || ('A' ≤ c && c ≤ 'F')

/-- Whether each run of separators in a path component is one of those allowed. -/
def separatorsOk : Text → Text → Bool
  | _, [] => true
  | sep, c :: cs =>
      if isLowerAlnum c then
        (sep = ['.'] || sep = ['_'] || sep = ['_', '_'] || sep.all (· = '-')) && separatorsOk [] cs
      else separatorsOk (c :: sep) cs

def isPathComponent (p : Text) : Bool :=
  (p.head?.any isLowerAlnum) && (p.getLast?.any isLowerAlnum) && separatorsOk [] p

def isPort (p : Text) : Bool := p ≠ [] && byteLen p ≤ 5 && p.all Char.isDigit

def isHostLabel (l : Text) : Bool :=
  (l.head?.any Char.isAlphanum) && (l.getLast?.any Char.isAlphanum) &&
    l.all fun c => c.isAlphanum || c = '-'

/-- A DNS host or a bracketed IPv6 address, with an optional port. -/
def isHost (h : Text) : Bool :=
  match h with
  | '[' :: rest =>
      match splitOnce [']'] rest with
      | none => false
      | some (addr, after) =>
          addr ≠ [] && addr.all (fun c => isHexDigit c || c = ':') &&
            match after with
            | [] => true
            | ':' :: port => isPort port
            | _ => false
  | _ =>
      match splitOnce [':'] h with
      | some (host, port) => isPort port && host ≠ [] && (host.splitOn '.').all isHostLabel
      | none => h ≠ [] && (h.splitOn '.').all isHostLabel

def isTag (t : Text) : Bool :=
  let word := fun c : Char => c.isAlphanum || c = '_'
  byteLen t ≤ 128 && t.head?.any word && t.all fun c => word c || c = '.' || c = '-'

def isDigest (d : Text) : Bool :=
  match splitOnce [':'] d with
  | none => false
  | some (algorithm, encoded) =>
      (algorithm.splitOnP fun c => c = '+' || c = '.' || c = '_' || c = '-').all
          (fun part => part ≠ [] && part.all isLowerAlnum) &&
        encoded ≠ [] && encoded.all fun c => c.isAlphanum || c = '=' || c = '_' || c = '-'

/-- Whether the first part of a name is a host. -/
def namesHost (first : Text) : Bool :=
  first.any (fun c => c = '.' || c = ':') || first = "localhost".toList || first.any Char.isUpper

def isImageName (name : Text) : Bool :=
  name ≠ [] && byteLen name ≤ maxImageName &&
    match name.splitOn '/' with
    | first :: second :: rest =>
        if namesHost first then isHost first && (second :: rest).all isPathComponent
        else (first :: second :: rest).all isPathComponent
    | parts => parts.all isPathComponent

/-- Whether `image` is an OCI image reference. -/
def isImageReference (image : Text) : Bool :=
  let (rest, digest) := match splitOnce ['@'] image with
    | some (rest, digest) => (rest, some digest)
    | none => (image, none)
  let (dir, base) := match rsplitOnce '/' rest with
    | some (dir, base) => (dir ++ ['/'], base)
    | none => ([], rest)
  let (name, tag) := match rsplitOnce ':' base with
    | some (name, tag) => (dir ++ name, some tag)
    | none => (rest, none)
  digest.all isDigest && tag.all isTag && isImageName name

end Scarab.Pipeline
