import Scarab.PackIndex
import Scarab.TextEncoding

/-!
# Writing a pack

Members, footer and trailer go through one buffer that is cut into parts of one size. What was
shipped and what is still buffered are always the members so far, and the offsets count them, so
that the writer keeps the depot's open pack.
-/
namespace Scarab.Packs
open Depot (Bytes PackMember PackMemberKind leBytes packMagic packTrailer packTrailerBytes
  packFormatVersion FinishedPack OpenPack PackKey)

/-- 8 MiB. -/
def packPartBytes : ℕ := 8 * 1024 * 1024

/-- The uploads the bucket refuses, a part by the number of parts before it. -/
structure UploadFaults where
  part : ℕ → Bool
  complete : Bool

def UploadFaults.none : UploadFaults := ⟨fun _ => false, false⟩

/-- A completed multipart upload. -/
structure Upload where
  parts : List Bytes
  fits : parts.flatten.length < 2 ^ 64

/-- The bucket concatenates the parts. -/
def Upload.object (u : Upload) : StoredObject := ⟨u.parts.flatten, u.fits⟩

structure PackWriter where
  key : Text
  parts : List Bytes
  buf : Bytes
  bodyBytes : ℕ
  members : List PackMember

/-- The arguments of one `append`. -/
structure Append where
  kind : PackMemberKind
  address : Text
  data : Bytes

def openPack (key : Text) : PackWriter := ⟨key, [], [], 0, []⟩

def putPart (faults : UploadFaults) (parts : List Bytes) (part : Bytes) :
    Except PackError (List Bytes) :=
  if faults.part parts.length then .error .backend else .ok (parts ++ [part])

/-- An object that is too large for a `u64` is not published. -/
def complete (faults : UploadFaults) (parts : List Bytes) : Except PackError Upload :=
  if faults.complete then .error .backend
  else if h : parts.flatten.length < 2 ^ 64 then .ok ⟨parts, h⟩
  else .error .backend

def shipFullParts (faults : UploadFaults) (w : PackWriter) : Except PackError PackWriter :=
  if packPartBytes ≤ w.buf.length then do
    let parts ← putPart faults w.parts (w.buf.take packPartBytes)
    shipFullParts faults { w with buf := w.buf.drop packPartBytes, parts := parts }
  else .ok w
termination_by w.buf.length
decreasing_by
  have hpos : 0 < packPartBytes := by decide
  simp only [List.length_drop]
  omega

/-- What is left of the buffer is the last part, unless nothing is. -/
def putLast (faults : UploadFaults) (w : PackWriter) : Except PackError (List Bytes) :=
  if w.buf = [] then .ok w.parts else putPart faults w.parts w.buf

def PackWriter.append (faults : UploadFaults) (w : PackWriter) (a : Append) :
    Except PackError PackWriter := do
  let offset := w.bodyBytes
  let w ← shipFullParts faults { w with buf := w.buf ++ a.data }
  let bodyBytes ← addU64 w.bodyBytes a.data.length
  .ok { w with
    bodyBytes := bodyBytes
    members := w.members ++ [⟨a.address, a.kind, offset, a.data.length⟩] }

def PackWriter.finish (codec : FooterCodec) (faults : UploadFaults) (w : PackWriter) :
    Except PackError (FinishedPack Text × Upload) := do
  let footer := codec.write w.members
  let w ← shipFullParts faults { w with buf := w.buf ++ (footer ++ packTrailer footer.length) }
  let parts ← putLast faults w
  let upload ← complete faults parts
  let withFooter ← addU64 w.bodyBytes footer.length
  let bytes ← addU64 withFooter packTrailerBytes
  .ok (⟨w.key, bytes, w.members⟩, upload)

/-- A pack opened, filled and finished. -/
def writePack (codec : FooterCodec) (faults : UploadFaults) (key : Text) (adds : List Append) :
    Except PackError (FinishedPack Text × Upload) := do
  let w ← adds.foldlM (PackWriter.append faults) (openPack key)
  w.finish codec faults

theorem bind_eq_ok {α β : Type} {x : Except PackError α} {f : α → Except PackError β} {b : β} :
    (x >>= f) = .ok b ↔ ∃ a, x = .ok a ∧ f a = .ok b := by
  cases x with
  | error e => simp
  | ok a => simp

/-- Bytes moved from the buffer into full parts. -/
structure Shipped (w w' : PackWriter) : Prop where
  key : w'.key = w.key
  bodyBytes : w'.bodyBytes = w.bodyBytes
  members : w'.members = w.members
  stream : w'.parts.flatten ++ w'.buf = w.parts.flatten ++ w.buf
  full : (∀ p ∈ w.parts, p.length = packPartBytes) → ∀ p ∈ w'.parts, p.length = packPartBytes
  short : w'.buf.length < packPartBytes

variable {codec : FooterCodec} {faults : UploadFaults}

theorem putPart_ok {parts parts' : List Bytes} {part : Bytes}
    (h : putPart faults parts part = .ok parts') : parts' = parts ++ [part] := by
  rw [putPart] at h
  split at h
  · cases h
  · exact (Except.ok.inj h).symm

theorem shipFullParts_shipped {w w' : PackWriter} (h : shipFullParts faults w = .ok w') :
    Shipped w w' := by
  fun_induction shipFullParts faults w with
  | case1 w hfull ih =>
    obtain ⟨parts, hput, hrest⟩ := bind_eq_ok.mp h
    obtain rfl := putPart_ok hput
    have hship := ih _ hrest
    refine ⟨hship.key, hship.bodyBytes, hship.members, ?_, ?_, hship.short⟩
    · rw [hship.stream]
      simp [List.take_append_drop]
    · intro hparts
      apply hship.full
      intro p hp
      rcases List.mem_append.mp hp with hp | hp
      · exact hparts p hp
      · obtain rfl := List.mem_singleton.mp hp
        simp only [List.length_take]
        omega
  | case2 w hshort =>
    obtain rfl := Except.ok.inj h
    exact ⟨rfl, rfl, rfl, rfl, fun h => h, by omega⟩

theorem shipFullParts_quiet (w : PackWriter) :
    ∃ w', shipFullParts UploadFaults.none w = .ok w' := by
  fun_induction shipFullParts UploadFaults.none w with
  | case1 w hfull ih =>
    obtain ⟨w', hw⟩ := ih (w.parts ++ [w.buf.take packPartBytes])
    exact ⟨w', bind_eq_ok.mpr ⟨_, if_neg (by simp [UploadFaults.none]), hw⟩⟩
  | case2 w hshort => exact ⟨w, rfl⟩

def content (adds : List Append) : Bytes := (adds.map (·.data)).flatten

/-- The rows of members laid out one after the other. -/
def layout : ℕ → List Append → List PackMember
  | _, [] => []
  | start, a :: as =>
    ⟨a.address, a.kind, start, a.data.length⟩ :: layout (start + a.data.length) as

/-- Each member starts where the one before it stops. -/
def Consecutive : ℕ → List PackMember → ℕ → Prop
  | start, [], stop => start = stop
  | start, m :: ms, stop => m.offset = start ∧ Consecutive (start + m.len) ms stop

def slice (bytes : Bytes) (m : PackMember) : Bytes := (bytes.drop m.offset).take m.len

theorem content_append (as bs : List Append) : content (as ++ bs) = content as ++ content bs := by
  simp [content]

theorem layout_append (start : ℕ) (as bs : List Append) :
    layout start (as ++ bs) = layout start as ++ layout (start + (content as).length) bs := by
  induction as generalizing start with
  | nil => simp [layout, content]
  | cons a as ih =>
    have hlen : (content (a :: as)).length = a.data.length + (content as).length := by
      simp [content]
    simp only [List.cons_append, layout, ih, hlen, Nat.add_assoc]

theorem layout_consecutive (start : ℕ) (as : List Append) :
    Consecutive start (layout start as) (start + (content as).length) := by
  induction as generalizing start with
  | nil => simp [layout, content, Consecutive]
  | cons a as ih =>
    have hlen : (content (a :: as)).length = a.data.length + (content as).length := by
      simp [content]
    rw [hlen, ← Nat.add_assoc]
    exact ⟨rfl, ih _⟩

theorem Consecutive.bounds {start stop : ℕ} {ms : List PackMember}
    (h : Consecutive start ms stop) :
    start ≤ stop ∧ ∀ m ∈ ms, start ≤ m.offset ∧ m.offset + m.len ≤ stop := by
  induction ms generalizing start with
  | nil => exact ⟨h.le, by simp⟩
  | cons m ms ih =>
    obtain ⟨hoffset, hrest⟩ := h
    obtain ⟨hle, hmem⟩ := ih hrest
    refine ⟨by omega, fun x hx => ?_⟩
    rcases List.mem_cons.mp hx with rfl | hx
    · omega
    · have hbound := hmem x hx
      omega

theorem Consecutive.disjoint {start stop : ℕ} {ms : List PackMember}
    (h : Consecutive start ms stop) : ms.Pairwise fun a b => a.offset + a.len ≤ b.offset := by
  induction ms generalizing start with
  | nil => exact List.Pairwise.nil
  | cons m ms ih =>
    obtain ⟨hoffset, hrest⟩ := h
    refine List.pairwise_cons.mpr ⟨fun x hx => ?_, ih hrest⟩
    have hbound := hrest.bounds.2 x hx
    omega

theorem slices_of_layout (before after : Bytes) (as : List Append) :
    (layout before.length as).map (slice (before ++ (content as ++ after))) =
      as.map (·.data) := by
  induction as generalizing before with
  | nil => rfl
  | cons a as ih =>
    have hsplit : before ++ (content (a :: as) ++ after) =
        (before ++ a.data) ++ (content as ++ after) := by
      simp [content]
    have hhead : slice (before ++ a.data ++ (content as ++ after))
        ⟨a.address, a.kind, before.length, a.data.length⟩ = a.data := by
      simp [slice]
    have hlen : before.length + a.data.length = (before ++ a.data).length := by simp
    simp only [layout, List.map_cons, hsplit, hhead, hlen, ih]

theorem layout_described (start : ℕ) (as : List Append) :
    (layout start as).map (fun m => (m.kind, m.address, m.len)) =
      as.map fun a => (a.kind, a.address, a.data.length) := by
  induction as generalizing start with
  | nil => rfl
  | cons a as ih => simp [layout, ih]

/-- A writer these members were appended to. -/
structure Filled (key : Text) (adds : List Append) (w : PackWriter) : Prop where
  key : w.key = key
  full : ∀ p ∈ w.parts, p.length = packPartBytes
  stream : w.parts.flatten ++ w.buf = content adds
  bodyBytes : w.bodyBytes = (content adds).length
  members : w.members = layout 0 adds

theorem openPack_filled (key : Text) : Filled key [] (openPack key) :=
  ⟨rfl, by simp [openPack], rfl, rfl, rfl⟩

theorem append_filled {key : Text} {adds : List Append} {w w' : PackWriter} {a : Append}
    (hw : Filled key adds w) (h : w.append faults a = .ok w') : Filled key (adds ++ [a]) w' := by
  obtain ⟨s, hs, hrest⟩ := bind_eq_ok.mp h
  obtain ⟨n, hn, hdone⟩ := bind_eq_ok.mp hrest
  have hship := shipFullParts_shipped hs
  obtain rfl := Except.ok.inj hdone
  have hcount : n = s.bodyBytes + a.data.length := by
    rw [addU64] at hn
    split at hn
    · exact (Except.ok.inj hn).symm
    · cases hn
  have hsingle : content [a] = a.data := by simp [content]
  constructor
  · exact hship.key.trans hw.key
  · exact hship.full hw.full
  · rw [content_append, hsingle, ← hw.stream, List.append_assoc]
    exact hship.stream
  · rw [content_append, hsingle, List.length_append, ← hw.bodyBytes]
    exact hcount.trans (congrArg (· + a.data.length) hship.bodyBytes)
  · rw [layout_append, ← hw.members, Nat.zero_add, ← hw.bodyBytes]
    exact congrArg (· ++ [_]) hship.members

theorem appends_filled {key : Text} {done adds : List Append} {w w' : PackWriter}
    (hw : Filled key done w) (h : adds.foldlM (PackWriter.append faults) w = .ok w') :
    Filled key (done ++ adds) w' := by
  induction adds generalizing done w with
  | nil =>
    obtain rfl := Except.ok.inj h
    simpa using hw
  | cons a adds ih =>
    rw [List.foldlM_cons] at h
    obtain ⟨s, hs, hrest⟩ := bind_eq_ok.mp h
    have hnext := ih (append_filled hw hs) hrest
    simpa using hnext

theorem packTrailer_length (n : ℕ) : (packTrailer n).length = packTrailerBytes := by
  simp [packTrailer, leBytes_length, packMagic, packTrailerBytes]

theorem footerLenOf_packTrailer {n : ℕ} (h : n < 2 ^ 64) : footerLenOf (packTrailer n) = n := by
  have htake : (packTrailer n).take 8 = leBytes 8 n := by
    rw [packTrailer, List.append_assoc]
    exact List.take_left' (leBytes_length 8 n)
  rw [footerLenOf, htake, ofLeBytes_leBytes 8 n (by omega)]

theorem drop_packTrailer (n : ℕ) :
    (packTrailer n).drop 8 = leBytes 4 packFormatVersion ++ packMagic := by
  rw [packTrailer, List.append_assoc]
  exact List.drop_left' (leBytes_length 8 n)

theorem versionOf_packTrailer (n : ℕ) : versionOf (packTrailer n) = packFormatVersion := by
  rw [versionOf, drop_packTrailer]
  rfl

theorem magicOf_packTrailer (n : ℕ) : magicOf (packTrailer n) = packMagic := by
  have hdrop : (packTrailer n).drop 12 = ((packTrailer n).drop 8).drop 4 := by
    rw [List.drop_drop]
  rw [magicOf, hdrop, drop_packTrailer]
  rfl

/-- The reader finds the footer that was written. -/
theorem packIndex_written {o : StoredObject} {body footer : Bytes} {members : List PackMember}
    (hbytes : o.bytes = body ++ (footer ++ packTrailer footer.length))
    (hread : codec.read footer = some members) :
    packIndex codec Refusals.none o = .ok members := by
  have hsize : o.size = body.length + (footer.length + packTrailerBytes) := by
    rw [StoredObject.size, hbytes]
    simp [packTrailer_length]
  have hfits : o.size < 2 ^ 64 := o.fits
  have htrailer : trailerOf o = packTrailer footer.length := by
    rw [trailerOf, hsize, hbytes, ← List.append_assoc]
    apply List.drop_left'
    rw [List.length_append]
    omega
  have hfooter : (o.bytes.drop (o.size - packTrailerBytes - footer.length)).take footer.length =
      footer := by
    rw [hsize, hbytes, show body.length + (footer.length + packTrailerBytes) - packTrailerBytes -
      footer.length = body.length by omega, List.drop_left, List.take_left]
  have hlen := footerLenOf_packTrailer (n := footer.length) (by omega)
  rw [packIndex_eq (by omega), if_neg (by simp [Refusals.none]), htrailer,
    readFooter_eq (magicOf_packTrailer _) (versionOf_packTrailer _).le (by omega), hlen,
    if_neg (by omega), getRange_eq _ _ (by omega), hfooter]
  by_cases hempty : footer.length = 0
  · obtain rfl := List.length_eq_zero_iff.mp hempty
    simp [hread]
  · simp [hempty, Refusals.none, hread]

/-- A finished pack and the upload behind it say what was appended. -/
structure SelfDescribing (codec : FooterCodec) (adds : List Append) (pack : FinishedPack Text)
    (u : Upload) : Prop where
  fullParts : ∀ part ∈ u.parts.dropLast, part.length = packPartBytes
  nonemptyParts : ∀ part ∈ u.parts, part ≠ []
  size : u.object.size = pack.bytes
  index : packIndex codec Refusals.none u.object = .ok pack.members
  described : pack.members.map (fun m => (m.kind, m.address, m.len)) =
    adds.map fun a => (a.kind, a.address, a.data.length)
  slices : pack.members.map (slice u.object.bytes) = adds.map (·.data)
  consecutive : Consecutive 0 pack.members (content adds).length
  disjoint : pack.members.Pairwise fun a b => a.offset + a.len ≤ b.offset
  beforeFooter : ∀ m ∈ pack.members,
    m.offset + m.len + (codec.write pack.members).length + packTrailerBytes ≤ u.object.size

theorem complete_ok {parts : List Bytes} {u : Upload} (h : complete faults parts = .ok u) :
    u.parts = parts := by
  rw [complete] at h
  split_ifs at h with hfail hfits
  exact congrArg Upload.parts (Except.ok.inj h).symm

theorem addU64_ok {a b n : ℕ} (h : addU64 a b = .ok n) : n = a + b := by
  rw [addU64] at h
  split at h
  · exact (Except.ok.inj h).symm
  · cases h

/-- All of the writer's bytes, in parts of which only the last may be short. -/
structure Ended (w : PackWriter) (parts : List Bytes) : Prop where
  stream : parts.flatten = w.parts.flatten ++ w.buf
  full : (∀ p ∈ w.parts, p.length = packPartBytes) →
    ∀ p ∈ parts.dropLast, p.length = packPartBytes
  nonempty : (∀ p ∈ w.parts, p.length = packPartBytes) → ∀ p ∈ parts, p ≠ []

theorem ended_of_ok {w : PackWriter} {parts : List Bytes}
    (h : putLast faults w = .ok parts) : Ended w parts := by
  have hpart : ∀ p : Bytes, p.length = packPartBytes → p ≠ [] := by
    intro p hp hnil
    rw [hnil] at hp
    exact absurd hp (by decide)
  rw [putLast] at h
  split at h
  · rename_i hbuf
    obtain rfl := Except.ok.inj h
    refine ⟨by simp [hbuf], fun hfull p hp => ?_, fun hfull p hp => hpart p (hfull p hp)⟩
    exact hfull p (List.dropLast_subset _ hp)
  · rename_i hbuf
    obtain rfl := putPart_ok h
    refine ⟨by simp, fun hfull p hp => ?_, fun hfull p hp => ?_⟩
    · rw [List.dropLast_concat] at hp
      exact hfull p hp
    · rcases List.mem_append.mp hp with hp | hp
      · exact hpart p (hfull p hp)
      · rw [List.mem_singleton.mp hp]
        exact hbuf

/-- serde_json reads back the footer it wrote for these members. -/
def FooterCodec.ReadsBack (codec : FooterCodec) (members : List PackMember) : Prop :=
  codec.read (codec.write members) = some members

/-- What is uploaded: all of the writer's bytes, then the footer and the trailer. -/
structure Finished (codec : FooterCodec) (w : PackWriter) (pack : FinishedPack Text) (u : Upload) :
    Prop where
  key : pack.key = w.key
  members : pack.members = w.members
  bytes : pack.bytes = w.bodyBytes + (codec.write w.members).length + packTrailerBytes
  object : u.object.bytes = w.parts.flatten ++ w.buf ++
    (codec.write w.members ++ packTrailer (codec.write w.members).length)
  full : (∀ p ∈ w.parts, p.length = packPartBytes) →
    ∀ p ∈ u.parts.dropLast, p.length = packPartBytes
  nonempty : (∀ p ∈ w.parts, p.length = packPartBytes) → ∀ p ∈ u.parts, p ≠ []

theorem finish_finished {w : PackWriter} {pack : FinishedPack Text} {u : Upload}
    (h : w.finish codec faults = .ok (pack, u)) : Finished codec w pack u := by
  obtain ⟨s, hs, h⟩ := bind_eq_ok.mp h
  obtain ⟨parts, hparts, h⟩ := bind_eq_ok.mp h
  obtain ⟨upload, hupload, h⟩ := bind_eq_ok.mp h
  obtain ⟨withFooter, hfooter, h⟩ := bind_eq_ok.mp h
  obtain ⟨bytes, hbytes, h⟩ := bind_eq_ok.mp h
  obtain ⟨rfl, rfl⟩ := Prod.mk.inj (Except.ok.inj h)
  have hship := shipFullParts_shipped hs
  have hended := ended_of_ok hparts
  have hcomplete := complete_ok hupload
  refine ⟨hship.key, hship.members, ?_, ?_, fun hfull => ?_, fun hfull => ?_⟩
  · change bytes = _
    rw [addU64_ok hbytes, addU64_ok hfooter, hship.bodyBytes]
  · change upload.parts.flatten = _
    rw [hcomplete, hended.stream, hship.stream, List.append_assoc]
  · rw [hcomplete]
    exact hended.full (hship.full hfull)
  · rw [hcomplete]
    exact hended.nonempty (hship.full hfull)

theorem finish_describes {key : Text} {adds : List Append} {w : PackWriter}
    {pack : FinishedPack Text} {u : Upload} (hcodec : codec.ReadsBack (layout 0 adds))
    (hw : Filled key adds w) (h : w.finish codec faults = .ok (pack, u)) :
    SelfDescribing codec adds pack u := by
  have hdone := finish_finished h
  have hmembers : pack.members = layout 0 adds := hdone.members.trans hw.members
  have hobject : u.object.bytes = content adds ++ (codec.write (layout 0 adds) ++
      packTrailer (codec.write (layout 0 adds)).length) := by
    rw [hdone.object, hw.stream, hw.members]
  have hsize : u.object.size = (content adds).length +
      ((codec.write (layout 0 adds)).length + packTrailerBytes) := by
    rw [StoredObject.size, hobject]
    simp [packTrailer_length]
  have hconsecutive := layout_consecutive 0 adds
  rw [Nat.zero_add] at hconsecutive
  have hbounds := hconsecutive.bounds.2
  constructor
  · exact hdone.full hw.full
  · exact hdone.nonempty hw.full
  · rw [hsize, hdone.bytes, hw.bodyBytes, hw.members]
    omega
  · rw [hmembers]
    exact packIndex_written hobject hcodec
  · rw [hmembers]
    exact layout_described 0 adds
  · rw [hmembers, hobject]
    exact slices_of_layout [] _ adds
  · rw [hmembers]
    exact hconsecutive
  · rw [hmembers]
    exact hconsecutive.disjoint
  · intro m hm
    rw [hmembers] at hm ⊢
    have hbound := hbounds m hm
    rw [hsize]
    omega

/-- What the depot has of an open pack these members were appended to. -/
def opened (key : PackKey) (adds : List Append) : OpenPack :=
  adds.foldl (fun w a => w.append a.kind a.address a.data) ⟨key, [], []⟩

theorem opened_eq (key : PackKey) (adds : List Append) :
    opened key adds = ⟨key, content adds, layout 0 adds⟩ := by
  induction adds using List.reverseRecOn with
  | nil => rfl
  | append_singleton adds a ih =>
    have hsingle : content [a] = a.data := by simp [content]
    rw [opened, List.foldl_append, ← opened, ih, layout_append, content_append, hsingle,
      Nat.zero_add]
    rfl

/-- What the depot has of a pack that is written is what the writer uploads. -/
theorem writePack_opened {host : Depot.Host} (hcodec : codec.write = host.footerJson) {name : Text}
    {adds : List Append} {pack : FinishedPack Text} {u : Upload}
    (h : writePack codec faults name adds = .ok (pack, u)) (key : PackKey) :
    u.object.bytes = (opened key adds).object host ∧
      pack.bytes = ((opened key adds).finished host).bytes ∧
      pack.members = ((opened key adds).finished host).members := by
  obtain ⟨w, hfill, hfinish⟩ := bind_eq_ok.mp h
  have hw := appends_filled (openPack_filled name) hfill
  rw [List.nil_append] at hw
  have hdone := finish_finished hfinish
  rw [opened_eq]
  refine ⟨?_, ?_, hdone.members.trans hw.members⟩
  · rw [hdone.object, hw.stream, hw.members, hcodec, ← List.append_assoc]
    rfl
  · rw [hdone.bytes, hw.bodyBytes, hw.members, hcodec]
    rfl

theorem append_quiet {w : PackWriter} {a : Append} (h : w.bodyBytes + a.data.length < 2 ^ 64) :
    ∃ w', w.append UploadFaults.none a = .ok w' := by
  obtain ⟨s, hs⟩ := shipFullParts_quiet { w with buf := w.buf ++ a.data }
  have hsame : s.bodyBytes = w.bodyBytes := (shipFullParts_shipped hs).bodyBytes
  have hadd := addU64_eq (a := s.bodyBytes) (b := a.data.length) (by omega)
  exact ⟨_, bind_eq_ok.mpr ⟨s, hs, bind_eq_ok.mpr ⟨_, hadd, rfl⟩⟩⟩

theorem appends_quiet {key : Text} {done adds : List Append} {w : PackWriter}
    (hw : Filled key done w) (h : (content (done ++ adds)).length < 2 ^ 64) :
    ∃ w', adds.foldlM (PackWriter.append UploadFaults.none) w = .ok w' := by
  induction adds generalizing done w with
  | nil => exact ⟨w, rfl⟩
  | cons a adds ih =>
    have hlen : (content (done ++ a :: adds)).length =
        w.bodyBytes + a.data.length + (content adds).length := by
      rw [hw.bodyBytes]
      simp [content, Nat.add_assoc]
    obtain ⟨s, hs⟩ := append_quiet (w := w) (a := a) (by omega)
    obtain ⟨w', hrest⟩ := ih (append_filled hw hs) (by simpa using h)
    rw [List.foldlM_cons]
    exact ⟨w', bind_eq_ok.mpr ⟨s, hs, hrest⟩⟩

/-- The footer of these members, as it is written. -/
def footerBytes (codec : FooterCodec) (adds : List Append) : Bytes := codec.write (layout 0 adds)

theorem finish_quiet {key : Text} {adds : List Append} {w : PackWriter} (hw : Filled key adds w)
    (h : (content adds).length + (footerBytes codec adds).length + packTrailerBytes < 2 ^ 64) :
    ∃ pack u, w.finish codec UploadFaults.none = .ok (pack, u) := by
  rw [footerBytes, ← hw.members] at h
  obtain ⟨s, hs⟩ := shipFullParts_quiet { w with
    buf := w.buf ++ (codec.write w.members ++ packTrailer (codec.write w.members).length) }
  have hship := shipFullParts_shipped hs
  obtain ⟨parts, hparts⟩ : ∃ parts, putLast UploadFaults.none s = .ok parts := by
    rw [putLast]
    split
    · exact ⟨_, rfl⟩
    · exact ⟨_, if_neg (by simp [UploadFaults.none])⟩
  have hlen : parts.flatten.length =
      (content adds).length + (codec.write w.members).length + packTrailerBytes := by
    rw [(ended_of_ok hparts).stream, hship.stream, ← hw.stream]
    simp only [List.length_append, packTrailer_length]
    omega
  have hsame : s.bodyBytes = (content adds).length := hship.bodyBytes.trans hw.bodyBytes
  have hcomplete : complete UploadFaults.none parts = .ok ⟨parts, by omega⟩ := by
    rw [complete, if_neg (by simp [UploadFaults.none]), dif_pos]
  have hfooter := addU64_eq (a := s.bodyBytes) (b := (codec.write w.members).length) (by omega)
  have htrailer := addU64_eq (a := s.bodyBytes + (codec.write w.members).length)
    (b := packTrailerBytes) (by omega)
  exact ⟨_, _, bind_eq_ok.mpr ⟨s, hs, bind_eq_ok.mpr ⟨parts, hparts, bind_eq_ok.mpr
    ⟨_, hcomplete, bind_eq_ok.mpr ⟨_, hfooter, bind_eq_ok.mpr ⟨_, htrailer, rfl⟩⟩⟩⟩⟩⟩

/-- Every pack that is finished describes itself, and unless the bucket refuses one, every pack
whose size is a `u64` is finished. -/
theorem finished_pack_describes_itself (codec : FooterCodec) (key : Text) (adds : List Append)
    (hcodec : codec.ReadsBack (layout 0 adds)) :
    (∀ faults pack u, writePack codec faults key adds = .ok (pack, u) →
      pack.key = key ∧ SelfDescribing codec adds pack u) ∧
    ((content adds).length + (footerBytes codec adds).length + packTrailerBytes < 2 ^ 64 →
      ∃ pack u, writePack codec UploadFaults.none key adds = .ok (pack, u)) := by
  constructor
  · intro faults pack u h
    obtain ⟨w, hfill, hfinish⟩ := bind_eq_ok.mp h
    have hw := appends_filled (openPack_filled key) hfill
    exact ⟨(finish_finished hfinish).key.trans hw.key, finish_describes hcodec hw hfinish⟩
  · intro h
    have hbody : (content ([] ++ adds)).length < 2 ^ 64 := by
      rw [List.nil_append]
      omega
    obtain ⟨w, hfill⟩ := appends_quiet (openPack_filled key) hbody
    obtain ⟨pack, u, hfinish⟩ := finish_quiet (appends_filled (openPack_filled key) hfill) h
    exact ⟨pack, u, bind_eq_ok.mpr ⟨w, hfill, hfinish⟩⟩

def sampleBlob : Text :=
  "sha256:".toList ++ addressText 0xc92697f4cc3b569dff3d484285d22487e523d4b439ae7c9a6747dc258e35b275

def sampleTree : Text :=
  "sha256:".toList ++ addressText 0x4f53cda18c2baa0c0354bb5f9a3ecbe5ed12ab4d8e11ba873c2f11161202b945

/-- A blob of one byte more than a part, and the empty tree. -/
def sampleAppends : List Append :=
  [⟨.blob, sampleBlob, List.replicate (packPartBytes + 1) 0x61⟩,
    ⟨.tree, sampleTree, [0x5b, 0x5d]⟩]

/-- The footer serde_json writes for them. -/
def sampleFooter : Text :=
  "[\x7b\"address\":\"".toList ++ sampleBlob ++
    "\",\"kind\":\"blob\",\"offset\":0,\"len\":8388609\x7d,\x7b\"address\":\"".toList ++
    sampleTree ++ "\",\"kind\":\"tree\",\"offset\":8388609,\"len\":2\x7d]".toList

def sampleCodec : FooterCodec where
  write _ := utf8Bytes sampleFooter
  read footer := if footer = utf8Bytes sampleFooter then some (layout 0 sampleAppends) else none

theorem content_sampleAppends : (content sampleAppends).length = packPartBytes + 3 := by
  simp only [content, sampleAppends, List.map_cons, List.map_nil, List.flatten_cons,
    List.flatten_nil, List.length_append, List.length_replicate, List.length_cons, List.length_nil]

theorem finished_pack_describes_itself_sample :
    ∃ pack u, writePack sampleCodec UploadFaults.none ['k'] sampleAppends = .ok (pack, u) ∧
      SelfDescribing sampleCodec sampleAppends pack u := by
  have hread : sampleCodec.ReadsBack (layout 0 sampleAppends) := by
    simp only [FooterCodec.ReadsBack, sampleCodec, if_true]
  obtain ⟨hdescribes, hfinishes⟩ :=
    finished_pack_describes_itself sampleCodec ['k'] sampleAppends hread
  have hfooter : (footerBytes sampleCodec sampleAppends).length < 4000 := by
    calc (utf8Bytes sampleFooter).length ≤ 4 * sampleFooter.length := utf8Bytes_length_le _
      _ < 4000 := by decide +kernel
  obtain ⟨pack, u, hok⟩ := hfinishes (by
    rw [content_sampleAppends, packPartBytes, packTrailerBytes]
    omega)
  exact ⟨pack, u, hok, (hdescribes _ _ _ hok).2⟩

end Scarab.Packs
