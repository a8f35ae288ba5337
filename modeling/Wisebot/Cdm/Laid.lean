import Wisebot.Cdm.RoundTrip

namespace Wisebot.Cdm

open Lib

/-! Stored documents as the entries that `cdm_get_doc` finds in them. -/

variable {Oid : Type}

structure Laid (cdm : Cdm2 Oid) (docid : Nat) (parts : Parts) (shorts : List ShortEntry)
    (longs : List LongEntry) : Prop where
  placed : Placed cdm docid (writeRecord parts)
  written : Written parts shorts longs
  known : docid ≤ cdm.lastDocid
  distinct : (shorts.map ShortEntry.name ++ longs.map LongEntry.name).Nodup
  noZero : ∀ entry ∈ longs, 0 ∉ entry.value

namespace Laid

variable {cdm : Cdm2 Oid} {docid : Nat} {parts : Parts} {shorts : List ShortEntry}
  {longs : List LongEntry}

theorem got (laid : Laid cdm docid parts shorts longs) :
    ∃ padding, cdmGetDoc cdm docid = .ok (docOf cdm docid parts shorts longs padding) :=
  laid.placed.cdmGetDoc laid.known laid.written

theorem shortStrings (padding : List UInt8) :
    List.Forall₂ (fun field entry =>
        stringAt (docOf cdm docid parts shorts longs padding).data field.name = entry.name ∧
          stringAt (docOf cdm docid parts shorts longs padding).data field.value = entry.value)
      (docOf cdm docid parts shorts longs padding).shortfields shorts :=
  shortfieldsAt_strings shorts [] (longfieldNamed longs ++ padding)

theorem longStrings (padding : List UInt8) :
    List.Forall₂ (fun field entry =>
        stringAt (docOf cdm docid parts shorts longs padding).data field.name = entry.name ∧
          field.textPosition = entry.text ∧ field.nextPosition = entry.next)
      (docOf cdm docid parts shorts longs padding).longfields longs := by
  have strings := longfieldsAt_strings longs (shortfieldNamed shorts) padding
  rwa [length_shortfieldNamed] at strings

theorem find_short (laid : Laid cdm docid parts shorts longs) (padding : List UInt8)
    {entry : ShortEntry} (member : entry ∈ shorts) :
    ∃ field, (docOf cdm docid parts shorts longs padding).shortfields.find? (fun other =>
        decide (stringAt (docOf cdm docid parts shorts longs padding).data other.name =
          entry.name)) = some field ∧
      stringAt (docOf cdm docid parts shorts longs padding).data field.value = entry.value := by
  rcases Cdm.find_related (fun _ _ agree => agree.1)
      (@shortStrings _ cdm docid parts shorts longs padding) entry.name with
    ⟨-, others⟩ | ⟨field, other, isFound, isOther, agree, sameName⟩
  · exact absurd rfl (others entry member)
  · refine ⟨field, isFound, ?_⟩
    have same : other = entry := List.inj_on_of_nodup_map
      (List.Nodup.of_append_left laid.distinct) isOther member sameName
    rw [← same]
    exact agree.2

theorem find_long (laid : Laid cdm docid parts shorts longs) (padding : List UInt8)
    {entry : LongEntry} (member : entry ∈ longs) :
    (docOf cdm docid parts shorts longs padding).shortfields.find? (fun other =>
        decide (stringAt (docOf cdm docid parts shorts longs padding).data other.name =
          entry.name)) = none ∧
      ∃ field, (docOf cdm docid parts shorts longs padding).longfields.find? (fun other =>
          decide (stringAt (docOf cdm docid parts shorts longs padding).data other.name =
            entry.name)) = some field ∧
        field.textPosition = entry.text ∧ field.nextPosition = entry.next := by
  constructor
  · rcases Cdm.find_related (fun _ _ agree => agree.1)
        (@shortStrings _ cdm docid parts shorts longs padding) entry.name with
      ⟨isNone, -⟩ | ⟨field, other, isFound, isOther, agree, sameName⟩
    · exact isNone
    · have disjoint := List.disjoint_of_nodup_append laid.distinct
      exact absurd (sameName ▸ List.mem_map_of_mem member)
        (disjoint (List.mem_map_of_mem isOther))
  · rcases Cdm.find_related (fun _ _ agree => agree.1)
        (@longStrings _ cdm docid parts shorts longs padding) entry.name with
      ⟨-, others⟩ | ⟨field, other, isFound, isOther, agree, sameName⟩
    · exact absurd rfl (others entry member)
    · refine ⟨field, isFound, ?_⟩
      have same : other = entry := List.inj_on_of_nodup_map
        (List.Nodup.of_append_right laid.distinct) isOther member sameName
      rw [← same]
      exact agree.2

theorem readBody (laid : Laid cdm docid parts shorts longs) {entry : LongEntry}
    (member : entry ∈ longs) {bytepos size : Nat}
    (inside : bytepos + size ≤ entry.value.length + 1) :
    readCdm cdm (cdm.index docid).dwDBNo (cdm.index docid).offset
        (headerSize + (parts.shortfields.length + parts.longfieldHeaders.length) + entry.text +
          bytepos) size =
      ((entry.value ++ [0]).drop bytepos).take size := by
  obtain ⟨bound, body⟩ := laid.written.bodies entry member
  have length : recordLength parts = headerSize + parts.shortfields.length +
    parts.longfieldHeaders.length + parts.longfieldBodies.length := rfl
  rw [LongEntry.next] at bound
  have bodiesAt : (writeRecord parts).drop (headerSize +
      (parts.shortfields.length + parts.longfieldHeaders.length) + entry.text) =
        parts.longfieldBodies.drop entry.text := by
    rw [← List.drop_drop, writeRecord_eq]
    congr 1
    apply List.drop_left'
    simp only [List.length_append, length_header]
    omega
  rw [laid.placed.readCdm (by omega), ← List.drop_drop, bodiesAt, ← body, List.drop_take,
    List.take_take, Nat.min_eq_left (by omega)]

end Laid

theorem FieldConfig.Fits.laid {config : FieldConfig} {behind : CdmField → Nat → UInt8}
    {values : FieldValues} (fits : config.Fits behind values)
    (noNul : ∀ name value, values name = some value → 0 ∉ value) {cdm : Cdm2 Oid} {docid : Nat}
    (placed : Placed cdm docid
      (writeRecord (buildParts behind (sortFields config.fields) values)))
    (known : docid ≤ cdm.lastDocid) :
    ∃ shorts longs,
      Laid cdm docid (buildParts behind (sortFields config.fields) values) shorts longs ∧
      List.Forall₂ (fun entry present => entry.name = present.1.name ∧
          entry.value = storedValue present.1 present.2)
        shorts (presentFields values (shortPart config.fields)) ∧
      List.Forall₂ (fun entry present => entry.name = present.1.name ∧
          entry.value = storedValue present.1 present.2)
        longs (presentFields values (longPart config.fields)) := by
  obtain ⟨shorts, longs, written, shortAgree, longAgree, noZero⟩ := fits.entries noNul
  refine ⟨shorts, longs, ⟨placed, written, known, ?_, noZero⟩, shortAgree, longAgree⟩
  rw [map_entries shortAgree longAgree]
  refine (((parts_perm config.fields).filter _).map _).nodup_iff.mpr ?_
  exact (List.filter_sublist.map CdmField.name).nodup config.distinct

structure Stands (config : FieldConfig) (values : FieldValues) (shorts : List ShortEntry)
    (longs : List LongEntry) : Prop where
  shorts : List.Forall₂ (fun entry present => entry.name = present.1.name ∧
    entry.value = storedValue present.1 present.2) shorts
      (presentFields values (shortPart config.fields))
  longs : List.Forall₂ (fun entry present => entry.name = present.1.name ∧
    entry.value = storedValue present.1 present.2) longs
      (presentFields values (longPart config.fields))

theorem Archived.laid [DecidableEq Oid] {config : FieldConfig} {archive : Archive Oid}
    (archived : Archived config archive) {document : StoredDocument}
    (member : document ∈ archive.documents) :
    ∃ parts shorts longs, Laid archive.store.cdm document.1 parts shorts longs ∧
      Stands config document.2 shorts longs := by
  obtain ⟨behind, fits, noNul, handed, isHanded, isDocid, isDocument⟩ :=
    archived.logged document member
  have placed := archived.sound.placed handed isHanded _ isDocument
  have range := archived.sound.recorded.range handed isHanded
  rw [isDocid] at placed range
  obtain ⟨shorts, longs, laid, shortsStand, longsStand⟩ :=
    fits.laid noNul placed (by rw [archived.lastDocid]; exact range.2)
  exact ⟨_, shorts, longs, laid, shortsStand, longsStand⟩

theorem FieldConfig.longPart_iff (config : FieldConfig) {field : CdmField}
    (member : field ∈ config.fields) :
    field ∈ longPart config.fields ↔ field ∉ shortPart config.fields := by
  have parts := parts_perm config.fields
  have distinct : (shortPart config.fields ++ longPart config.fields).Nodup :=
    parts.nodup_iff.mpr (List.Nodup.of_map _ config.distinct)
  have either := List.mem_append.mp (parts.mem_iff.mpr member)
  exact ⟨fun isLong isShort => List.disjoint_of_nodup_append distinct isShort isLong,
    fun notShort => either.resolve_left notShort⟩

end Wisebot.Cdm
