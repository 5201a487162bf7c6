import Scarab.DepotPrograms

/-!
# Flat manifests

The whole subtree under a root in one list: breadth first, so a directory comes before what is
in it. The walk is written over the monad its reads happen in.
-/
namespace Scarab.Depot

structure FlatEntry where
  path : Text
  blob : Text
  size : ℕ
  mode : Option ℕ
  mtimeMs : Option ℤ
  deriving DecidableEq, Repr

structure FlatDir where
  path : Text
  mode : Option ℕ
  mtimeMs : Option ℤ
  deriving DecidableEq, Repr

structure FlatManifest where
  root : Text
  entries : List FlatEntry
  dirs : List FlatDir
  deriving DecidableEq, Repr

def sortByName (entries : List TreeEntry) : List TreeEntry :=
  entries.insertionSort fun a b => ¬ b.name < a.name

/-- The path of an entry of the tree at `pre`. -/
def childPath (pre name : Text) : Text := if pre = [] then name else pre ++ '/' :: name

section flatten

variable {m : Type → Type} [Monad m] (treeEntries : Text → m (List TreeEntry))
  (blobSize : Text → m ℕ)

/-- One entry of the tree at `pre`: a file with its size, or a directory to walk later. -/
def flattenEntry (pre : Text) (acc : FlatManifest × List (Text × Text)) (entry : TreeEntry) :
    m (FlatManifest × List (Text × Text)) :=
  match entry.target with
  | .blob blob => do
      let size ← blobSize blob
      pure ({ acc.1 with entries := acc.1.entries ++
        [⟨childPath pre entry.name, blob, size, entry.mode, entry.mtimeMs⟩] }, acc.2)
  | .tree sub =>
      pure ({ acc.1 with dirs := acc.1.dirs ++
        [⟨childPath pre entry.name, entry.mode, entry.mtimeMs⟩] },
        acc.2 ++ [(sub, childPath pre entry.name)])

/-- Walk the trees of the queue, each with its path, as far as the rounds go. -/
def flattenFrom (stop : m FlatManifest) :
    ℕ → List (Text × Text) → FlatManifest → m FlatManifest
  | _, [], manifest => pure manifest
  | 0, _ :: _, _ => stop
  | rounds + 1, (tree, pre) :: queue, manifest => do
      let children ← treeEntries tree
      let acc ← (sortByName children).foldlM (flattenEntry blobSize pre) (manifest, queue)
      flattenFrom stop rounds acc.2 acc.1

def flatten (stop : m FlatManifest) (rounds : ℕ) (root : Text) : m FlatManifest :=
  flattenFrom treeEntries blobSize stop rounds [(root, [])] ⟨root, [], []⟩

end flatten

theorem mem_sortByName {entries : List TreeEntry} {e : TreeEntry} :
    e ∈ sortByName entries ↔ e ∈ entries := List.mem_insertionSort _

/-- A character for each byte. -/
def latinText (bytes : Bytes) : Text := bytes.map fun u => Char.ofNat u.toNat

theorem latinText_injective : Function.Injective latinText := by
  refine List.map_injective_iff.mpr fun u v huv => ?_
  have hval : ∀ u : UInt8, (Char.ofNat u.toNat).toNat = u.toNat := by
    intro u
    have hlt := u.toNat_lt
    have hvalid : u.toNat.isValidChar := .inl (by omega)
    rw [Char.ofNat, dif_pos hvalid]
    rfl
  have hsame := (hval u).symm.trans ((congrArg Char.toNat huv).trans (hval v))
  exact UInt8.toNat_inj.mp hsame

end Scarab.Depot
