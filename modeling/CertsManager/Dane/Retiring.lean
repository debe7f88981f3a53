import CertsManager.Json.Decode

/-!
# Retiring — the marker of digests that must stay published

`ParseRetiring` and `MarshalRetiring` (dane/retiring.go).  One record is written as a bare object,
which is all that readers from before the list understand; any other number as an array.  A reader
tries the array first and the object when that fails.

Records without a digest are dropped by the reader, whichever shape they came in.
-/

namespace CertsManager
namespace Retiring

open Json

/-- `dane.RetiringRecord`. -/
structure RetiringRecord where
  digest : GoString
  retireAfter : Int64
  deriving DecidableEq

namespace RetiringRecord

def zero : RetiringRecord :=
  ⟨[], 0⟩

/-- The record as `json.Marshal` sees it. -/
def value (r : RetiringRecord) : Value :=
  .obj [("digest".toList, .str r.digest.written),
    ("retire_after".toList, .num (intText r.retireAfter.toInt))]

def assign (key : Text) (v : Value) (r : RetiringRecord) : RetiringRecord × Bool :=
  if isField "digest" key then
    ({ r with digest := (setString .ofText v r.digest).1 }, (setString .ofText v r.digest).2)
  else if isField "retire_after" key then
    ({ r with retireAfter := (setInt64 v r.retireAfter).1 }, (setInt64 v r.retireAfter).2)
  else (r, false)

def set (v : Value) : RetiringRecord × Bool :=
  setStruct assign v zero

end RetiringRecord

/-- `json.Marshal` of one record, the only form older nodes write. -/
def marshalOne (r : RetiringRecord) : Text :=
  render r.value

/-- `json.Unmarshal` into one record, the only form older nodes read. -/
def unmarshalOne (raw : Text) : Except UnmarshalError RetiringRecord :=
  unmarshal RetiringRecord.set raw

def setRecords (v : Value) : Slice RetiringRecord × Bool :=
  setSlice RetiringRecord.set v none

/-- The records of a list that have a digest. -/
def withDigest (records : List RetiringRecord) : List RetiringRecord :=
  records.filter fun r => decide (r.digest ≠ [])

def parseRetiring (raw : Text) : Except UnmarshalError (List RetiringRecord) :=
  match unmarshal setRecords raw with
  | .ok list => .ok (withDigest list.list)
  | .error _ =>
      match unmarshalOne raw with
      | .error e => .error e
      | .ok one => .ok (withDigest [one])

/-- `json.Marshal` of a slice of records; nil is written as `null`. -/
def sliceValue : Slice RetiringRecord → Value
  | none => .null
  | some records => .arr (records.map RetiringRecord.value)

/-- Marshalling these types does not fail. -/
def marshalRetiring (records : Slice RetiringRecord) : Text :=
  match records.list with
  | [r] => marshalOne r
  | _ => render (sliceValue records)

example : marshalOne ⟨.ofText ['a', 'b'], 5⟩ =
    "\x7b\"digest\":\"ab\",\"retire_after\":5\x7d".toList := by decide +kernel

/-! ## Reading back -/

namespace RetiringRecord

variable (r : RetiringRecord)

theorem value_written : Written r.value := by
  refine .obj fun m hm => ?_
  simp only [List.mem_cons, List.not_mem_nil, or_false] at hm
  rcases hm with rfl | rfl
  · exact .str _
  · exact .num _

/-- The record a reader makes of what was written: bytes that are no characters are replaced. -/
def reread : RetiringRecord :=
  { r with digest := .ofText r.digest.written }

theorem assign_digest (v : Value) : assign "digest".toList v r =
    ({ r with digest := (setString .ofText v r.digest).1 }, (setString .ofText v r.digest).2) :=
  if_pos (by decide)

theorem assign_retireAfter (v : Value) : assign "retire_after".toList v r =
    ({ r with retireAfter := (setInt64 v r.retireAfter).1 }, (setInt64 v r.retireAfter).2) :=
  (if_neg (by decide)).trans (if_pos (by decide))

theorem set_value : set r.value = (r.reread, false) := by
  simp only [set, setStruct, value, List.foldl_cons, List.foldl_nil, setMember,
    assign_digest, assign_retireAfter, setInt64_intText, setString, Bool.or_false, reread]

theorem reread_of_valid (h : r.digest.Valid) : r.reread = r := by
  rw [reread, GoString.ofText_written h]

end RetiringRecord

theorem sliceValue_written (records : Slice RetiringRecord) : Written (sliceValue records) := by
  cases records with
  | none => exact .null
  | some records =>
      refine .arr fun v hv => ?_
      obtain ⟨r, -, rfl⟩ := List.mem_map.1 hv
      exact r.value_written

theorem unmarshalOne_marshalOne (r : RetiringRecord) : unmarshalOne (marshalOne r) = .ok r.reread := by
  rw [unmarshalOne, marshalOne, unmarshal_render _ r.value_written, r.set_value]
  rfl

/-- An object is no array. -/
theorem unmarshal_records_marshalOne (r : RetiringRecord) :
    unmarshal setRecords (marshalOne r) = .error .wrongType :=
  unmarshal_render setRecords r.value_written

theorem parseRetiring_marshalOne (r : RetiringRecord) :
    parseRetiring (marshalOne r) = .ok (withDigest [r.reread]) := by
  rw [parseRetiring, unmarshal_records_marshalOne, unmarshalOne_marshalOne]

theorem setRecords_sliceValue (records : Slice RetiringRecord) :
    (setRecords (sliceValue records)).1.list = records.list.map RetiringRecord.reread ∧
      (setRecords (sliceValue records)).2 = false := by
  cases records with
  | none => exact ⟨rfl, rfl⟩
  | some records =>
      refine ⟨?_, ?_⟩
      · simp [setRecords, setSlice, sliceValue, Slice.list, RetiringRecord.set_value]
      · simp [setRecords, setSlice, sliceValue, RetiringRecord.set_value]

theorem parseRetiring_sliceValue (records : Slice RetiringRecord) :
    parseRetiring (render (sliceValue records)) =
      .ok (withDigest (records.list.map RetiringRecord.reread)) := by
  obtain ⟨hlist, hok⟩ := setRecords_sliceValue records
  rw [parseRetiring, unmarshal_render _ (sliceValue_written records), hok, ← hlist]
  rfl

/-- What is read back of a list: its records with a digest, in order. -/
theorem parseRetiring_marshalRetiring (records : Slice RetiringRecord) :
    parseRetiring (marshalRetiring records) =
      .ok (withDigest (records.list.map RetiringRecord.reread)) := by
  unfold marshalRetiring
  split
  · rename_i r hone
    rw [hone, parseRetiring_marshalOne]
    rfl
  · exact parseRetiring_sliceValue records

theorem map_reread {records : List RetiringRecord} (h : ∀ r ∈ records, r.digest.Valid) :
    records.map RetiringRecord.reread = records :=
  (List.map_congr_left fun r hr => r.reread_of_valid (h r hr)).trans (List.map_id _)

/-- The markers of a host survive being written, by nodes old and new.  A list whose digests are
text is read back as its records with a digest, in order; one record is read back unchanged by an
older node; and what an older node wrote is read as the record it wrote, unless that has no
digest. -/
theorem retiring_codec (records : Slice RetiringRecord)
    (hvalid : ∀ r ∈ records.list, r.digest.Valid) :
    parseRetiring (marshalRetiring records) = .ok (withDigest records.list) ∧
      (∀ r, records.list = [r] → unmarshalOne (marshalRetiring records) = .ok r) ∧
      ∀ r : RetiringRecord, r.digest.Valid →
        parseRetiring (marshalOne r) = .ok (if r.digest = [] then [] else [r]) := by
  refine ⟨?_, fun r hone => ?_, fun r hr => ?_⟩
  · rw [parseRetiring_marshalRetiring, map_reread hvalid]
  · have hr := hvalid r (hone ▸ List.mem_singleton_self r)
    rw [marshalRetiring, hone]
    exact (unmarshalOne_marshalOne r).trans (congrArg _ (r.reread_of_valid hr))
  · rw [parseRetiring_marshalOne, r.reread_of_valid hr]
    by_cases hempty : r.digest = []
    · simp [withDigest, hempty]
    · simp [withDigest, hempty]

/-- Two markers, the second without a digest. -/
def twoMarkers : List RetiringRecord :=
  [⟨.ofText ['a', 'b'], 1⟩, ⟨[], 2⟩]

theorem retiring_codec_two :
    parseRetiring (marshalRetiring (some twoMarkers)) = .ok [⟨.ofText ['a', 'b'], 1⟩] := by
  have hvalid : ∀ r ∈ Slice.list (some twoMarkers), r.digest.Valid := by
    refine List.forall_mem_cons.2 ⟨GoString.ofText_valid _, List.forall_mem_cons.2 ⟨?_, ?_⟩⟩
    · exact nofun
    · exact nofun
  exact (retiring_codec (some twoMarkers) hvalid).1

/-- An older node's record without a digest is read as no record, and a digest that is not text is
read as another. -/
theorem retiring_lost :
    parseRetiring (marshalOne ⟨[], 1⟩) = .ok [] ∧
      parseRetiring (marshalRetiring (some [⟨[.invalid 0xFF], 1⟩])) =
        .ok [⟨[.char replacement], 1⟩] :=
  ⟨parseRetiring_marshalOne _, parseRetiring_marshalRetiring _⟩

end Retiring
end CertsManager
