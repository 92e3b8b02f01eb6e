import Micius.Lib.Numerals
import Micius.Lib.TreeMap
import Micius.Reference.Instance
import Micius.Wal.Recovery

/-!
# Segment files by name (`wal/writer.rs`, `wal/recovery.rs`)

`WalDir` numbers the segments. The source works on a directory: it names
segment `n` `{n:020}.wal`, replays the files with the extension `wal` in the
order of their names, and finds the highest segment by parsing the names that
`read_dir` lists, in whatever order. A directory that also holds other files
stays in step with the numbered one.
-/

namespace Micius

open Numerals

/-- The file name of `segment_path`. -/
def segmentName (segment : Nat) : String :=
  String.ofList (padded 10 20 segment ++ ".wal".toList)

/-- `Path::extension` of a file name: what follows the last dot, unless that
is the only dot and the name starts with it. -/
def extension (name : String) : Option (List Char) :=
  match name.toList.reverse.dropWhile (· ≠ '.') with
  | _ :: _ :: _ => some (name.toList.reverse.takeWhile (· ≠ '.')).reverse
  | _ => none

def isWalFile (name : String) : Bool := extension name = some ".wal".toList.tail

/-- The files of a directory as `read_dir` lists them, with their contents. -/
abbrev Listing := List (String × Bytes)

/-- `get_wal_files`. -/
def getWalFiles (listing : Listing) : Listing :=
  (listing.filter fun e => isWalFile e.1).mergeSort fun a b => (compare a.1 b.1).isLE

/-- `str::parse::<u64>`: an optional plus sign and digits, without overflow. -/
def parseU64 : List Char → Option Nat
  | [] => none
  | ['+'] => none
  | '+' :: digits => (value 10 digits).filter (· < 2 ^ 64)
  | digits => (value 10 digits).filter (· < 2 ^ 64)

/-- `trim_end_matches(".wal")` on the reversed name: every such ending goes. -/
def trimWal : List Char → List Char
  | 'l' :: 'a' :: 'w' :: '.' :: cs => trimWal cs
  | cs => cs

/-- The number that `highest_segment_number` takes from a name. -/
def segmentNumber (name : String) : Option Nat :=
  if ".wal".toList <:+ name.toList then parseU64 (trimWal name.toList.reverse).reverse else none

/-- The larger of the maximum so far and one more number. -/
def raise : Option Nat → Nat → Option Nat
  | none, n => some n
  | some k, n => if n > k then some n else some k

/-- `highest_segment_number`, in the order of the listing. -/
def highestInListing (listing : Listing) : Option Nat :=
  listing.foldl (fun m e =>
    match segmentNumber e.1 with
    | none => m
    | some n => raise m n) none

/-- `recover` on the files that a directory lists. -/
def recoverListing [Crates] (listing : Listing) (snapshotWatermark : Nat) :
    Except RecoverError RecoveryResult :=
  replayFiles snapshotWatermark ((getWalFiles listing).map Prod.snd) .empty

/-! ## Names of segments -/

theorem toList_segmentName {n : Nat} (h : n < 2 ^ 64) :
    (segmentName n).toList = fixed 10 20 n ++ ".wal".toList := by
  rw [segmentName, String.toList_ofList,
    padded_eq_fixed (by decide) (by decide) (h.trans (by decide))]

theorem compare_of_toList_lt {s t : String} (h : s.toList < t.toList) : compare s t = .lt :=
  compareOfLessAndEq_eq_lt.mpr h

/-- The names compare as the numbers do. -/
theorem segmentName_lt {m n : Nat} (hmn : m < n) (hn : n < 2 ^ 64) :
    compare (segmentName m) (segmentName n) = .lt := by
  apply compare_of_toList_lt
  rw [toList_segmentName (hmn.trans hn), toList_segmentName hn]
  exact append_lt_of_lt (by rw [length_fixed, length_fixed])
    (fixed_lt_fixed (by decide) hmn (hn.trans (by decide))) _ _

theorem segmentName_inj {m n : Nat} (hm : m < 2 ^ 64) (hn : n < 2 ^ 64)
    (h : segmentName m = segmentName n) : m = n := by
  rcases Nat.lt_trichotomy m n with hlt | heq | hlt
  · have := segmentName_lt hlt hn
    rw [h, Std.ReflOrd.compare_self] at this
    cases this
  · exact heq
  · have := segmentName_lt hlt hm
    rw [h, Std.ReflOrd.compare_self] at this
    cases this

/-- A name that ends in `.wal` has the extension, unless it is no more than that. -/
theorem extension_of_suffix {name : String} {stem : List Char}
    (h : name.toList = stem ++ ".wal".toList) (hne : stem ≠ []) : isWalFile name = true := by
  have hrev : name.toList.reverse = 'l' :: 'a' :: 'w' :: '.' :: stem.reverse := by
    rw [h, List.reverse_append]
    rfl
  cases hstem : stem.reverse with
  | nil => exact absurd (List.reverse_eq_nil_iff.mp hstem) hne
  | cons c cs =>
    rw [isWalFile, extension, hrev, hstem]
    exact decide_eq_true rfl

theorem isWalFile_segmentName {n : Nat} (h : n < 2 ^ 64) : isWalFile (segmentName n) = true := by
  have hne : fixed 10 20 n ≠ [] := by
    rw [← List.length_pos_iff, length_fixed]
    decide
  exact extension_of_suffix (toList_segmentName h) hne

theorem parseU64_of_value {digits : List Char} {n : Nat} (hne : digits ≠ [])
    (hvalue : value 10 digits = some n) (h : n < 2 ^ 64) : parseU64 digits = some n := by
  -- a sign is no digit
  have hsign : ∀ cs, digits = '+' :: cs → False := by
    rintro cs rfl
    rw [value, List.foldlM_cons] at hvalue
    cases hvalue
  rw [parseU64.eq_4 digits hne (hsign []) hsign, hvalue, Option.filter, if_pos]
  exact decide_eq_true h

theorem segmentNumber_of_stem {name : String} {stem : List Char} {c : Char}
    (hname : name.toList = (stem ++ [c]) ++ ".wal".toList) (hc : c ≠ 'l') :
    segmentNumber name = parseU64 (stem ++ [c]) := by
  have hrev : name.toList.reverse = 'l' :: 'a' :: 'w' :: '.' :: c :: stem.reverse := by
    rw [hname, List.reverse_append, List.reverse_append]
    rfl
  have htrim : trimWal (c :: stem.reverse) = c :: stem.reverse :=
    trimWal.eq_2 _ fun cs heq => hc (List.cons.inj heq).1
  rw [segmentNumber, if_pos ⟨stem ++ [c], hname.symm⟩, hrev, trimWal, htrim, List.reverse_cons,
    List.reverse_reverse]

/-- Parsing takes the number back from the name. -/
theorem segmentNumber_segmentName {n : Nat} (h : n < 2 ^ 64) :
    segmentNumber (segmentName n) = some n := by
  have hname := toList_segmentName h
  have hwidth : n < 10 ^ 20 := h.trans (by decide)
  have hvalue : value 10 (fixed 10 20 n) = some n := by
    rw [value_fixed (by decide) (by decide), Nat.mod_eq_of_lt hwidth]
  obtain ⟨stem, hlast⟩ := exists_fixed_append 10 n (show 0 < 20 by decide)
  have hdigit : ∀ d < 10, d.digitChar ≠ 'l' := by decide
  rw [hlast] at hname hvalue
  rw [segmentNumber_of_stem hname (hdigit _ (Nat.mod_lt _ (by decide))),
    parseU64_of_value (by simp) hvalue h]

/-- A file without the extension has no segment number. -/
theorem segmentNumber_of_not_wal {name : String} (h : isWalFile name = false) :
    segmentNumber name = none := by
  rw [segmentNumber]
  split
  · next hsuffix =>
    obtain ⟨stem, hstem⟩ := hsuffix
    have hnil : stem = [] := by
      by_contra hne
      rw [extension_of_suffix hstem.symm hne] at h
      cases h
    rw [← hstem, hnil]
    rfl
  · rfl

/-! ## The highest number -/

theorem raise_eq_max (m : Option Nat) (n : Nat) : raise m n = some (max (m.getD 0) n) := by
  cases m with
  | none => rw [raise, Option.getD_none, Nat.zero_max]
  | some k =>
    rw [raise, Option.getD_some]
    split
    · rw [Nat.max_eq_right (by omega)]
    · rw [Nat.max_eq_left (by omega)]

theorem foldl_raise_of_perm {ns ns' : List Nat} (hperm : ns.Perm ns') :
    ns.foldl raise none = ns'.foldl raise none := by
  refine hperm.foldl_eq' (fun a _ b _ m => ?_) none
  simp only [raise_eq_max, Option.getD_some]
  rw [Nat.max_assoc, Nat.max_assoc, Nat.max_comm a b]

theorem highestInListing_eq (listing : Listing) : highestInListing listing =
    (listing.filterMap fun e => segmentNumber e.1).foldl raise none := by
  rw [List.foldl_filterMap, highestInListing]
  congr 1
  funext m e
  cases segmentNumber e.1 <;> rfl

theorem highestSegmentNumber_eq (dir : WalDir) :
    highestSegmentNumber dir = (dir.toList.map Prod.fst).foldl raise none := by
  rw [highestSegmentNumber]
  congr 1
  funext m n
  cases m <;> rfl

/-! ## The two directories in step -/

/-- The segment an operation is on. -/
def WalOp.segment : WalOp → Nat
  | .create seg | .write seg _ | .sync seg | .remove seg => seg

/-- The files of a directory, by name. -/
abbrev NamedDir := BTreeMap String Bytes

namespace NamedDir

/-- The effect of one operation, on the file of its segment. -/
def apply (named : NamedDir) : WalOp → NamedDir
  | .create seg => if segmentName seg ∈ named then named else named.insert (segmentName seg) []
  | .write seg bytes => named.insert (segmentName seg) ((named[segmentName seg]?).getD [] ++ bytes)
  | .sync _ => named
  | .remove seg => named.erase (segmentName seg)

def run (named : NamedDir) (ops : List WalOp) : NamedDir := ops.foldl apply named

end NamedDir

/-- The directory holds the segments of `dir` by name; its other files do not
have the extension `wal`. -/
structure Names (named : NamedDir) (dir : WalDir) : Prop where
  segments : ∀ n < 2 ^ 64, named[segmentName n]? = dir[n]?
  bounded : ∀ n bytes, dir[n]? = some bytes → n < 2 ^ 64
  only : ∀ name bytes, named[name]? = some bytes → isWalFile name = true →
    ∃ n < 2 ^ 64, name = segmentName n

namespace Names

variable {named : NamedDir} {dir : WalDir}

theorem insert (h : Names named dir) {seg : Nat} (hseg : seg < 2 ^ 64) (bytes : Bytes) :
    Names (named.insert (segmentName seg) bytes) (dir.insert seg bytes) where
  segments n hn := by
    rw [TreeMap.getElem?_insert_eq, TreeMap.getElem?_insert_eq, h.segments n hn]
    by_cases heq : n = seg
    · rw [if_pos (by rw [heq]), if_pos heq]
    · rw [if_neg fun hname => heq (segmentName_inj hn hseg hname), if_neg heq]
  bounded n content hn := by
    rw [TreeMap.getElem?_insert_eq] at hn
    split at hn
    · next heq => rwa [heq]
    · exact h.bounded n content hn
  only name content hname hwal := by
    rw [TreeMap.getElem?_insert_eq] at hname
    split at hname
    · next heq => exact ⟨seg, hseg, heq⟩
    · exact h.only name content hname hwal

theorem erase (h : Names named dir) {seg : Nat} (hseg : seg < 2 ^ 64) :
    Names (named.erase (segmentName seg)) (dir.erase seg) where
  segments n hn := by
    rw [TreeMap.getElem?_erase_eq, TreeMap.getElem?_erase_eq, h.segments n hn]
    by_cases heq : n = seg
    · rw [if_pos (by rw [heq]), if_pos heq]
    · rw [if_neg fun hname => heq (segmentName_inj hn hseg hname), if_neg heq]
  bounded n content hn := by
    rw [TreeMap.getElem?_erase_eq] at hn
    split at hn
    · cases hn
    · exact h.bounded n content hn
  only name content hname hwal := by
    rw [TreeMap.getElem?_erase_eq] at hname
    split at hname
    · cases hname
    · exact h.only name content hname hwal

/-- One operation keeps the directories in step. -/
theorem apply (h : Names named dir) {op : WalOp} (hop : op.segment < 2 ^ 64) :
    Names (named.apply op) (dir.apply op) := by
  cases op with
  | create seg =>
    have hmem : segmentName seg ∈ named ↔ seg ∈ dir := by
      rw [Std.ExtTreeMap.mem_iff_isSome_getElem?, Std.ExtTreeMap.mem_iff_isSome_getElem?,
        h.segments seg hop]
    rw [NamedDir.apply, WalDir.apply]
    by_cases hseg : seg ∈ dir
    · rwa [if_pos (hmem.mpr hseg), if_pos hseg]
    · rw [if_neg fun hname => hseg (hmem.mp hname), if_neg hseg]
      exact h.insert hop []
  | write seg bytes =>
    rw [NamedDir.apply, WalDir.apply, h.segments seg hop]
    exact h.insert hop _
  | sync seg => exact h
  | remove seg => exact h.erase hop

theorem run (h : Names named dir) {ops : List WalOp} (hops : ∀ op ∈ ops, op.segment < 2 ^ 64) :
    Names (named.run ops) (dir.run ops) := by
  induction ops generalizing named dir with
  | nil => exact h
  | cons op ops ih =>
    exact ih (h.apply (hops op List.mem_cons_self)) fun op' hmem =>
      hops op' (List.mem_cons_of_mem op hmem)

/-! ## What the listing shows -/

variable (h : Names named dir) {listing : Listing} (hlist : listing.Perm named.toList)
include h hlist

/-- The files with the extension are the segments, under their names. -/
theorem filter_perm : (listing.filter fun e => isWalFile e.1).Perm
    (dir.toList.map fun p => (segmentName p.1, p.2)) := by
  have hbound : ∀ p ∈ dir.toList, p.1 < 2 ^ 64 := fun p hp =>
    h.bounded p.1 p.2 (Std.ExtTreeMap.mem_toList_iff_getElem?_eq_some.mp hp)
  have hnodup : (dir.toList.map fun p => (segmentName p.1, p.2)).Nodup := by
    refine List.Nodup.map_on (fun p hp q hq heq => ?_) (TreeMap.nodup_toList dir)
    obtain ⟨hname, hbytes⟩ := Prod.mk.inj heq
    exact Prod.ext (segmentName_inj (hbound p hp) (hbound q hq) hname) hbytes
  have hnodup' : listing.Nodup := hlist.nodup_iff.mpr (TreeMap.nodup_toList named)
  rw [List.perm_ext_iff_of_nodup (hnodup'.filter _) hnodup]
  rintro ⟨name, bytes⟩
  rw [List.mem_filter, hlist.mem_iff, Std.ExtTreeMap.mem_toList_iff_getElem?_eq_some, List.mem_map]
  constructor
  · rintro ⟨hfile, hwal⟩
    obtain ⟨n, hn, rfl⟩ := h.only name bytes hfile hwal
    rw [h.segments n hn] at hfile
    exact ⟨(n, bytes), Std.ExtTreeMap.mem_toList_iff_getElem?_eq_some.mpr hfile, rfl⟩
  · rintro ⟨p, hp, heq⟩
    obtain ⟨rfl, rfl⟩ := Prod.mk.inj heq
    have hn := hbound p hp
    refine ⟨?_, isWalFile_segmentName hn⟩
    rw [h.segments p.1 hn]
    exact Std.ExtTreeMap.mem_toList_iff_getElem?_eq_some.mp hp

/-- `get_wal_files` returns the segments in the order of their numbers. -/
theorem getWalFiles_eq : getWalFiles listing = dir.toList.map fun p => (segmentName p.1, p.2) := by
  have hsorted : (dir.toList.map fun p => (segmentName p.1, p.2)).Pairwise
      fun a b => (compare a.1 b.1).isLE = true := by
    refine List.pairwise_map.mpr (Std.ExtTreeMap.ordered_keys_toList.imp_of_mem ?_)
    intro p q hp hq hlt
    have hq := h.bounded q.1 q.2 (Std.ExtTreeMap.mem_toList_iff_getElem?_eq_some.mp hq)
    rw [segmentName_lt (Nat.compare_eq_lt.mp hlt) hq]
    rfl
  refine List.Perm.eq_of_pairwise ?_ (List.pairwise_mergeSort ?_ ?_ _) hsorted
    ((List.mergeSort_perm _ _).trans (h.filter_perm hlist))
  · -- two files of one name are one
    intro a b ha hb hab hba
    have hname : a.1 = b.1 := Std.LawfulEqOrd.eq_of_compare (Std.OrientedCmp.isLE_antisymm hab hba)
    have hmem : ∀ e ∈ getWalFiles listing, named[e.1]? = some e.2 := fun e he =>
      Std.ExtTreeMap.mem_toList_iff_getElem?_eq_some.mp
        (hlist.mem_iff.mp (List.mem_filter.mp (List.mem_mergeSort.mp he)).1)
    have hb := hmem b (List.mem_mergeSort.mpr ((h.filter_perm hlist).mem_iff.mpr hb))
    have ha := hmem a ha
    rw [hname, hb] at ha
    exact Prod.ext hname (Option.some.inj ha).symm
  · exact fun a b c => Std.TransCmp.isLE_trans
  · intro a b
    cases hcmp : compare a.1 b.1 with
    | lt => rfl
    | eq => rfl
    | gt =>
      rw [Std.OrientedCmp.lt_of_gt hcmp]
      rfl

/-- `highest_segment_number` finds the last segment. -/
theorem highestInListing_eq_highest : highestInListing listing = highestSegmentNumber dir := by
  have hothers : (listing.filter fun e => !isWalFile e.1).filterMap
      (fun e => segmentNumber e.1) = [] := by
    refine List.filterMap_eq_nil_iff.mpr fun e he => segmentNumber_of_not_wal ?_
    simpa using (List.mem_filter.mp he).2
  have hsegments : (dir.toList.map fun p => (segmentName p.1, p.2)).filterMap
      (fun e => segmentNumber e.1) = dir.toList.map Prod.fst := by
    rw [List.filterMap_map, ← List.filterMap_eq_map]
    refine List.filterMap_congr fun p hp => ?_
    have hn := h.bounded p.1 p.2 (Std.ExtTreeMap.mem_toList_iff_getElem?_eq_some.mp hp)
    rw [Function.comp_apply, Function.comp_apply, segmentNumber_segmentName hn]
  rw [highestInListing_eq, foldl_raise_of_perm
    ((List.filter_append_perm (fun e => isWalFile e.1) listing).symm.filterMap _),
    List.filterMap_append, hothers, List.append_nil,
    foldl_raise_of_perm ((h.filter_perm hlist).filterMap _), hsegments, highestSegmentNumber_eq]

end Names

/-- **Names stand for numbers.** After any operations on the segment files of a
directory that also holds other files, `recover` and `highest_segment_number`
find in it, in whatever order it is listed, what they find in the numbered one. -/
theorem named_log_refines [Crates] {named : NamedDir} {dir : WalDir} (h : Names named dir)
    {ops : List WalOp} (hops : ∀ op ∈ ops, op.segment < 2 ^ 64) {listing : Listing}
    (hlist : listing.Perm (named.run ops).toList) :
    (∀ w, recoverListing listing w = recover (dir.run ops) w) ∧
      highestInListing listing = highestSegmentNumber (dir.run ops) := by
  have hrun := h.run hops
  refine ⟨fun w => ?_, hrun.highestInListing_eq_highest hlist⟩
  rw [recoverListing, recover, hrun.getWalFiles_eq hlist, List.map_map, WalDir.files]
  rfl

/-! ## Two segments and another file -/

section Example

attribute [local instance] Reference.crates

/-- A file that is no segment. -/
def strayDir : NamedDir := (∅ : NamedDir).insert "10.wal.bak" [7]

theorem names_strayDir : Names strayDir ∅ := by
  have hstray : isWalFile "10.wal.bak" = false := by decide +kernel
  refine ⟨fun n hn => ?_, fun n bytes hn => by simp at hn, fun name bytes hname hwal => ?_⟩
  · rw [strayDir, TreeMap.getElem?_insert_eq, if_neg]
    · simp
    · intro heq
      rw [← heq, isWalFile_segmentName hn] at hstray
      cases hstray
  · rw [strayDir, TreeMap.getElem?_insert_eq] at hname
    split at hname
    · next heq =>
      rw [heq, hstray] at hwal
      cases hwal
    · simp at hname

/-- Segments 9 and 10 are written; the listing has segment 10 first. -/
theorem named_log_refines_twoSegments :
    (∀ w, recoverListing [(segmentName 10, [2]), ("10.wal.bak", [7]), (segmentName 9, [1])] w =
      recover ((∅ : WalDir).run [.write 9 [1], .write 10 [2]]) w) ∧
    highestInListing [(segmentName 10, [2]), ("10.wal.bak", [7]), (segmentName 9, [1])] =
      some 10 := by
  have hrefines := named_log_refines names_strayDir
    (show ∀ op ∈ [WalOp.write 9 [1], .write 10 [2]], op.segment < 2 ^ 64 by decide)
    (show [(segmentName 10, [2]), ("10.wal.bak", [7]), (segmentName 9, [1])].Perm
      (strayDir.run [.write 9 [1], .write 10 [2]]).toList by decide +kernel)
  exact ⟨hrefines.1, hrefines.2.trans (by decide +kernel)⟩

end Example

end Micius
