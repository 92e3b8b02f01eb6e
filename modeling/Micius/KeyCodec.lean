import Micius.Lib.TreeMap
import Micius.Types

/-!
# The series key codec (`types.rs`)

`to_bytes` writes the separators `,` and `=` without escaping them. The keys
that `from_bytes` gives back are those whose strings do not contain a separator
where the decoder looks for one.
-/

namespace Micius

namespace SeriesKey

/-- A tag without `,`, and without `=` in its key. The value may contain `=`. -/
def PlainTag (kv : String × String) : Prop :=
  ',' ∉ kv.1.toList ∧ '=' ∉ kv.1.toList ∧ ',' ∉ kv.2.toList

/-- No separator stands where `from_bytes` would split. -/
def Plain (k : SeriesKey) : Prop :=
  ',' ∉ k.metricName.toList ∧ ∀ kv ∈ k.tags.toList, PlainTag kv

/-! ## Splitting -/

theorem splitOnce_append {c : Char} {before : List Char} (h : c ∉ before) (after : List Char) :
    splitOnce c (before ++ c :: after) = some (before, after) := by
  induction before with
  | nil => simp [splitOnce]
  | cons d before ih =>
    rw [List.mem_cons, not_or] at h
    rw [List.cons_append, splitOnce, if_neg (Ne.symm h.1), ih h.2]
    rfl

theorem splitOnce_eq_some {c : Char} {s before after : List Char}
    (h : splitOnce c s = some (before, after)) : s = before ++ c :: after ∧ c ∉ before := by
  induction s generalizing before with
  | nil => cases h
  | cons d s ih =>
    rw [splitOnce] at h
    split at h
    · next heq =>
      cases h
      exact ⟨by rw [heq]; rfl, List.not_mem_nil⟩
    · next hne =>
      obtain ⟨⟨before', after'⟩, hs, heq⟩ := Option.map_eq_some_iff.mp h
      cases heq
      obtain ⟨rfl, hnot⟩ := ih hs
      refine ⟨rfl, fun hmem => ?_⟩
      rcases List.mem_cons.mp hmem with rfl | hmem
      · exact hne rfl
      · exact hnot hmem

theorem not_mem_of_mem_splitOn {c : Char} {s part : List Char} (h : part ∈ s.splitOn c) :
    c ∉ part := by
  induction s generalizing part with
  | nil => simp_all [List.splitOn_nil]
  | cons d s ih =>
    rw [List.splitOn_cons_eq_if_modifyHead] at h
    split at h
    · rcases List.mem_cons.mp h with rfl | h
      · exact List.not_mem_nil
      · exact ih h
    · next hne =>
      cases hs : s.splitOn c with
      | nil => exact absurd hs (List.splitOn_ne_nil _ _)
      | cons first rest =>
        rw [hs, List.modifyHead_cons] at h
        rcases List.mem_cons.mp h with rfl | h
        · rw [List.mem_cons, not_or]
          refine ⟨fun heq => hne (by simp [heq]), ih (by simp [hs])⟩
        · exact ih (by simp [hs, h])

/-! ## Decoding what was encoded -/

/-- A tag as it is written. -/
def tagText (kv : String × String) : List Char := kv.1.toList ++ '=' :: kv.2.toList

theorem strBytes_ofList_append (s t : List Char) :
    strBytes (String.ofList (s ++ t)) = strBytes (String.ofList s) ++ strBytes (String.ofList t) := by
  simp [strBytes, String.ofList_append]

theorem strBytes_toList (s : String) : strBytes (String.ofList s.toList) = strBytes s := by
  rw [String.ofList_toList]

theorem strBytes_tagText (kv : String × String) :
    strBytes (String.ofList (tagText kv)) = strBytes kv.1 ++ 61 :: strBytes kv.2 := by
  have heq : strBytes (String.ofList ['=']) = [61] := by decide +kernel
  rw [tagText, ← List.singleton_append, strBytes_ofList_append, strBytes_ofList_append,
    strBytes_toList, strBytes_toList, heq]
  rfl

theorem fromUTF8_strBytes (s : String) : String.fromUTF8? ⟨(strBytes s).toArray⟩ = some s := by
  rw [strBytes, Array.toArray_toList, String.fromUTF8?, dif_pos s.isValidUTF8]
  rfl

/-- The encoded key is the text of its parts, joined by `,`. -/
theorem toBytes_eq (k : SeriesKey) : k.toBytes = strBytes (String.ofList
    ([','].intercalate (k.metricName.toList :: k.tags.toList.map tagText))) := by
  have hparts : ∀ (name : List Char) (tags : List (String × String)),
      strBytes (String.ofList ([','].intercalate (name :: tags.map tagText))) =
        strBytes (String.ofList name) ++
          tags.flatMap fun kv => 44 :: (strBytes kv.1 ++ 61 :: strBytes kv.2) := by
    intro name tags
    induction tags generalizing name with
    | nil => simp
    | cons kv tags ih =>
      rw [List.map_cons, List.intercalate_cons_cons, strBytes_ofList_append, strBytes_ofList_append,
        ih, strBytes_tagText, List.flatMap_cons]
      simp [show strBytes (String.ofList [',']) = [44] by decide +kernel]
  rw [hparts, strBytes_toList, toBytes]

/-- The tag loop collects the written tags. -/
theorem parseTags_tagText {l : List (String × String)} (h : ∀ kv ∈ l, '=' ∉ kv.1.toList)
    (tags : BTreeMap String String) :
    parseTags (l.map tagText) tags = .ok (tags.insertMany l) := by
  induction l generalizing tags with
  | nil => simp [parseTags]
  | cons kv l ih =>
    obtain ⟨key, value⟩ := kv
    rw [List.map_cons, parseTags, tagText, splitOnce_append (h _ (by simp))]
    dsimp only
    rw [String.ofList_toList, String.ofList_toList, ih fun kv' hkv => h kv' (by simp [hkv]),
      Std.ExtTreeMap.insertMany_cons]

/-- A plain key is given back. -/
theorem Plain.fromBytes_toBytes {k : SeriesKey} (h : k.Plain) : fromBytes k.toBytes = .ok k := by
  have hsplit : ([','].intercalate (k.metricName.toList :: k.tags.toList.map tagText)).splitOn ',' =
      k.metricName.toList :: k.tags.toList.map tagText := by
    refine List.splitOn_intercalate ',' (fun part hpart => ?_) (List.cons_ne_nil _ _)
    rcases List.mem_cons.mp hpart with rfl | hpart
    · exact h.1
    · obtain ⟨kv, hkv, rfl⟩ := List.mem_map.mp hpart
      obtain ⟨hkey, -, hvalue⟩ := h.2 kv hkv
      simp [tagText, hkey, hvalue]
  have htags : parseTags (k.tags.toList.map tagText) ∅ = .ok k.tags := by
    rw [parseTags_tagText fun kv hkv => (h.2 kv hkv).2.1, ← Std.ExtTreeMap.ofList_eq_insertMany_empty,
      TreeMap.ofList_toList]
  rw [fromBytes, toBytes_eq, fromUTF8_strBytes]
  simp only [String.toList_ofList, hsplit, htags, String.ofList_toList]

/-! ## What the decoder returns -/

/-- The tags collected from parts without `,` are plain. -/
theorem parseTags_plain {parts : List (List Char)} (hparts : ∀ part ∈ parts, ',' ∉ part)
    {acc tags : BTreeMap String String} (hacc : ∀ kv ∈ acc.toList, PlainTag kv)
    (h : parseTags parts acc = .ok tags) : ∀ kv ∈ tags.toList, PlainTag kv := by
  induction parts generalizing acc with
  | nil =>
    cases h
    exact hacc
  | cons part parts ih =>
    rw [parseTags] at h
    split at h
    · cases h
    · next key value hsplit =>
      obtain ⟨rfl, hkey⟩ := splitOnce_eq_some hsplit
      refine ih (fun part hpart => hparts part (by simp [hpart])) (fun kv hkv => ?_) h
      have hpart := hparts _ (List.mem_cons_self ..)
      simp only [List.mem_append, List.mem_cons, not_or] at hpart
      rcases List.mem_cons.mp ((TreeMap.toList_insert_perm acc _ _).mem_iff.mp hkv) with rfl | hkv
      · simpa [PlainTag] using ⟨hpart.1, hkey, hpart.2.2⟩
      · exact hacc kv (List.mem_of_mem_filter hkv)

/-- A key that was decoded is plain. -/
theorem plain_of_fromBytes {bytes : Bytes} {k : SeriesKey} (h : fromBytes bytes = .ok k) :
    k.Plain := by
  rw [fromBytes] at h
  split at h
  · cases h
  · next s =>
    split at h
    · cases h
    · next name parts hsplit =>
      split at h
      · cases h
      · next tags htags =>
        cases h
        have hparts : ∀ part ∈ name :: parts, ',' ∉ part :=
          fun part hpart => not_mem_of_mem_splitOn (hsplit ▸ hpart)
        refine ⟨by simpa using hparts name (by simp), ?_⟩
        exact parseTags_plain (fun part hpart => hparts part (by simp [hpart])) (by simp) htags

/-- **The domain of the codec**: the keys that decode to themselves are the
plain ones, and their encodings differ. -/
theorem fromBytes_toBytes_iff_plain :
    (∀ k : SeriesKey, fromBytes k.toBytes = .ok k ↔ k.Plain) ∧ Set.InjOn toBytes {k | k.Plain} := by
  refine ⟨fun k => ⟨plain_of_fromBytes, Plain.fromBytes_toBytes⟩, fun k hk k' hk' heq => ?_⟩
  have hdecoded := Plain.fromBytes_toBytes hk
  rw [heq, Plain.fromBytes_toBytes hk'] at hdecoded
  exact (Except.ok.inj hdecoded).symm

end SeriesKey

end Micius
