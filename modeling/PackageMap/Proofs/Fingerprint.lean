import PackageMap.Command.Report
import PackageMap.Proofs.MapText

/-!
# What a fingerprint tells apart

The bytes that are hashed for a fingerprint are those of one list of keys and values only, since
each field is led by its length (`stream_eq_iff`). For the files of a report they tell the keys, the
contents and the specifiers: the text of a record is that of one content and one list of specifiers.
-/

namespace PackageMap.Fingerprint

/-- The fields are short enough for their lengths to be written in eight bytes. -/
def Fits (pairs : List (List UInt8 × List UInt8)) : Prop :=
  ∀ p ∈ pairs, p.1.length < wordLimit ∧ p.2.length < wordLimit

instance (pairs : List (List UInt8 × List UInt8)) : Decidable (Fits pairs) := by
  unfold Fits; infer_instance

/-! ## Lengths -/

/-- The number that bytes write, the lowest byte first. -/
def bytesValue : List UInt8 → Nat
  | [] => 0
  | b :: bs => b.toNat + 256 * bytesValue bs

/-- The lowest `k` bytes of a number. -/
theorem bytesValue_bytes (k n : Nat) :
    bytesValue ((List.range k).map fun i => UInt8.ofNat (n >>> (8 * i))) = n % (1 <<< (8 * k)) := by
  induction k generalizing n with
  | zero => exact (Nat.mod_one n).symm
  | succ k ih =>
    have hlimit : 1 <<< (8 * (k + 1)) = 256 * (1 <<< (8 * k)) := by
      rw [Nat.mul_succ, Nat.shiftLeft_add, Nat.shiftLeft_eq _ 8, Nat.mul_comm]
    have hshift (i : Nat) : n >>> (8 * (i + 1)) = (n / 256) >>> (8 * i) := by
      rw [Nat.mul_succ, Nat.add_comm, Nat.shiftRight_add, Nat.shiftRight_eq_div_pow n 8]
    rw [List.range_succ_eq_map, List.map_cons, List.map_map, bytesValue, hlimit, Nat.mod_mul, ← ih]
    simp only [Function.comp_def, Nat.succ_eq_add_one, hshift, UInt8.toNat_ofNat', Nat.mul_zero,
      Nat.shiftRight_zero, Nat.reducePow]

theorem bytesValue_lengthBytes {n : Nat} (h : n < wordLimit) : bytesValue (lengthBytes n) = n :=
  (bytesValue_bytes 8 n).trans (Nat.mod_eq_of_lt h)

theorem lengthBytes_inj {n m : Nat} (hn : n < wordLimit) (hm : m < wordLimit)
    (h : lengthBytes n = lengthBytes m) : n = m := by
  rw [← bytesValue_lengthBytes hn, h, bytesValue_lengthBytes hm]

/-! ## Fields -/

/-- A field and what follows it are told apart by its length. -/
theorem frame_append_inj {a b r s : List UInt8} (ha : a.length < wordLimit)
    (hb : b.length < wordLimit) (h : frame a ++ r = frame b ++ s) : a = b ∧ r = s := by
  unfold frame at h
  rw [List.append_assoc, List.append_assoc] at h
  obtain ⟨hlength, hrest⟩ := List.append_inj h (by rw [lengthBytes_length, lengthBytes_length])
  exact List.append_inj hrest (lengthBytes_inj ha hb hlength)

theorem stream_cons (p : List UInt8 × List UInt8) (pairs : List (List UInt8 × List UInt8)) :
    stream (p :: pairs) = frame p.1 ++ (frame p.2 ++ stream pairs) := by
  unfold stream
  rw [List.flatMap_cons, List.append_assoc]

theorem stream_cons_ne_nil (p : List UInt8 × List UInt8) (pairs : List (List UInt8 × List UInt8)) :
    stream (p :: pairs) ≠ [] := by
  intro h
  have hlength := congrArg List.length h
  rw [stream_cons, List.length_append, frame, List.length_append, lengthBytes_length] at hlength
  simp at hlength

theorem stream_inj {pairs pairs' : List (List UInt8 × List UInt8)} (h : Fits pairs)
    (h' : Fits pairs') (heq : stream pairs = stream pairs') : pairs = pairs' := by
  induction pairs generalizing pairs' with
  | nil =>
    cases pairs' with
    | nil => rfl
    | cons p' pairs' => exact absurd heq.symm (stream_cons_ne_nil p' pairs')
  | cons p pairs ih =>
    cases pairs' with
    | nil => exact absurd heq (stream_cons_ne_nil p pairs)
    | cons p' pairs' =>
      obtain ⟨hkey, hvalue⟩ := h p (by simp)
      obtain ⟨hkey', hvalue'⟩ := h' p' (by simp)
      rw [stream_cons, stream_cons] at heq
      obtain ⟨hfst, hrest⟩ := frame_append_inj hkey hkey' heq
      obtain ⟨hsnd, hrest⟩ := frame_append_inj hvalue hvalue' hrest
      rw [Prod.ext hfst hsnd,
        ih (fun q hq => h q (.tail _ hq)) (fun q hq => h' q (.tail _ hq)) hrest]

/-! ## Files -/

theorem bytes_inj {s s' : String} (h : s.toUTF8.data.toList = s'.toUTF8.data.toList) : s = s' :=
  String.toByteArray_inj.1 (ByteArray.ext (Array.toList_inj.1 h))

/-- The text of a record tells its content and its specifiers. -/
theorem compactText_json_eq_iff {r r' : FileRecord} :
    r.json.compactText = r'.json.compactText ↔
      r.content = r'.content ∧ r.requires = r'.requires := by
  constructor
  · intro h
    have hjson : r.json = r'.json := by
      refine Option.some.inj ?_
      rw [← (r.readable_json 125).ofText?_compactText, h,
        (r'.readable_json 125).ofText?_compactText]
    have hcontent := r.told_json.content
    have hrequires := r.told_json.requires
    rw [hjson] at hcontent hrequires
    refine ⟨Option.some.inj (hcontent.symm.trans r'.told_json.content), ?_⟩
    refine Option.map_injective ?_ (hrequires.symm.trans r'.told_json.requires)
    refine fun specs specs' hspecs => List.map_injective_iff.2 ?_ (Json.array.inj hspecs)
    exact fun _ _ => Json.string.inj
  · rintro ⟨hcontent, hrequires⟩
    unfold FileRecord.json
    rw [hcontent, hrequires]

/-- The keys and values that are hashed for the files of a report. -/
def fields (files : List (String × FileRecord)) : List (List UInt8 × List UInt8) :=
  files.map fun f => (f.1.toUTF8.data.toList, f.2.json.compactText.toUTF8.data.toList)

theorem fingerprint_eq (files : List (String × FileRecord)) :
    Command.fingerprint files = ofPairs (fields files) := rfl

/-- The files of a report: their keys, contents and specifiers. -/
def shown (files : List (String × FileRecord)) : List (String × String × Option (List String)) :=
  files.map fun f => (f.1, f.2.content, f.2.requires)

theorem fields_eq_iff {files files' : List (String × FileRecord)} :
    fields files = fields files' ↔ shown files = shown files' := by
  have hfile (f f' : String × FileRecord) :
      (f.1.toUTF8.data.toList, f.2.json.compactText.toUTF8.data.toList) =
          (f'.1.toUTF8.data.toList, f'.2.json.compactText.toUTF8.data.toList) ↔
        (f.1, f.2.content, f.2.requires) = (f'.1, f'.2.content, f'.2.requires) := by
    simp only [Prod.mk.injEq, ← compactText_json_eq_iff]
    exact ⟨fun h => ⟨bytes_inj h.1, bytes_inj h.2⟩, fun h => by rw [h.1, h.2]; exact ⟨rfl, rfl⟩⟩
  unfold fields shown
  simp only [← List.forall₂_eq_eq_eq, List.forall₂_map_left_iff, List.forall₂_map_right_iff, hfile]

/-- Equal bytes are hashed for equal keys and values only, and for the files of two reports only
where they have the same keys, contents and specifiers. -/
theorem stream_eq_iff :
    (∀ pairs pairs', Fits pairs → Fits pairs' → (stream pairs = stream pairs' ↔ pairs = pairs')) ∧
      ∀ files files', Fits (fields files) → Fits (fields files') →
        (stream (fields files) = stream (fields files') ↔ shown files = shown files') := by
  have hpairs (pairs pairs' : List (List UInt8 × List UInt8)) (h : Fits pairs) (h' : Fits pairs') :
      stream pairs = stream pairs' ↔ pairs = pairs' :=
    ⟨stream_inj h h', congrArg stream⟩
  exact ⟨hpairs, fun files files' h h' => (hpairs _ _ h h').trans fields_eq_iff⟩

/-- It shows where a key ends, and that a script without references is not a leaf. -/
theorem stream_ne :
    Fits [([97, 98], [99])] ∧ Fits [([97], [98, 99])] ∧
      stream [([97, 98], [99])] ≠ stream [([97], [98, 99])] ∧
      Fits (fields [("/a.js", ⟨⟨"/a.js"⟩, "", some []⟩)]) ∧
      Fits (fields [("/a.js", ⟨⟨"/a.js"⟩, "", none⟩)]) ∧
      stream (fields [("/a.js", ⟨⟨"/a.js"⟩, "", some []⟩)]) ≠
        stream (fields [("/a.js", ⟨⟨"/a.js"⟩, "", none⟩)]) :=
  have hscript : Fits (fields [("/a.js", ⟨⟨"/a.js"⟩, "", some []⟩)]) := by decide
  have hleaf : Fits (fields [("/a.js", ⟨⟨"/a.js"⟩, "", none⟩)]) := by decide
  ⟨by decide, by decide, (stream_eq_iff.1 _ _ (by decide) (by decide)).not.2 (by decide), hscript,
    hleaf, (stream_eq_iff.2 _ _ hscript hleaf).not.2 (by decide)⟩

end PackageMap.Fingerprint
