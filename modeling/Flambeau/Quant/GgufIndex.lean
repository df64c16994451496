import Mathlib.Data.List.Nodup
import Flambeau.Quant.GgufOpen
import Flambeau.Quant.GgufTotal

namespace Flambeau.Quant
open Systems

/-- The index of a file, where it is read. -/
def readIndex (m : Machine) (fs : FileSystem) (path : GgufPath) : Option Header :=
  (fs path).bind fun mmap =>
    match readHeader m mmap.bytes with
    | .ok (header, _) => some header
    | _ => none

/-- The files of a split set, part 0 first. -/
def partPaths (m : Machine) (fs : FileSystem) (path : GgufPath) : List GgufPath :=
  match (readIndex m fs path).bind fun header => siblingPaths header.metadata path with
  | none => [path]
  | some siblings => path :: siblings.drop 1

/-- The records of a part. -/
def partRecords (m : Machine) (fs : FileSystem) (p : GgufPath × Nat) : List (Nat × TensorInfo) :=
  (((readIndex m fs p.1).map Header.infos).getD []).map fun info => (p.2, info)

/-- Every index record of the set with the number of its part. -/
def records (m : Machine) (fs : FileSystem) (path : GgufPath) : List (Nat × TensorInfo) :=
  (partPaths m fs path).zipIdx.flatMap (partRecords m fs)

/-- The order has no name twice and lists the keys of the map; no two records have one
name, and a key has the record of its name, with the part that holds it. -/
structure IndexAgrees (file : GgufFile) (records : List (Nat × TensorInfo)) : Prop where
  order : file.tensorOrder.Nodup
  keys : ∀ name, name ∈ file.tensorOrder ↔ (file.tensors name).isSome = true
  listed : ∀ p ∈ records, p.2.name ∈ file.tensorOrder
  sole : (records.map (·.2.name)).Nodup
  carried : ∀ name info, file.tensors name = some info →
    ∃ p ∈ records, p.2.name = name ∧ info = { p.2 with splitIdx := p.1 }

theorem openOneSplit_ok (h : openOneSplit m fs path i = .ok parsed) :
    ∃ header, readIndex m fs path = some header ∧ parsed.metadata = header.metadata ∧
      parsed.tensors = header.tensors.update (.inSplit i) ∧
      parsed.tensorOrder = header.infos.map (·.name) := by
  unfold openOneSplit at h
  unfold readIndex
  cases hfs : fs path with
  | none =>
    rw [hfs] at h
    cases h
  | some mmap =>
    rw [hfs] at h
    dsimp only at h
    rw [Option.bind_some]
    unfold parseGgufHeader at h
    cases hread : readHeader m mmap.bytes with
    | err e =>
      rw [hread] at h
      cases h
    | fault f =>
      rw [hread] at h
      cases h
    | ok result =>
      obtain ⟨header, rest⟩ := result
      rw [hread] at h
      refine ⟨header, rfl, ?_⟩
      dsimp only at h
      split at h
      · rename_i p hp
        split at hp
        · cases hp
        · split at hp
          · cases hp
          · cases hp
            cases h
            exact ⟨rfl, rfl, rfl⟩
      · cases h
      · cases h

/-- What a part's map finds is of that part. -/
theorem update_split {tensors : HashMap TensorInfo} (h : tensors.update (.inSplit i) name = some info) :
    info.splitIdx < 2 ^ 16 := by
  obtain ⟨t, -, rfl⟩ := Option.map_eq_some_iff.mp h
  exact Nat.mod_lt _ (by decide)

/-- `split_idx` is sixteen bits wide. -/
def Narrow (tensors : HashMap TensorInfo) : Prop :=
  ∀ name info, tensors name = some info → info.splitIdx < 2 ^ 16

theorem mergeTensors_narrow (hn : Narrow tensors)
    (h : mergeTensors i sib tensors order names = .ok (tensors', order')) : Narrow tensors' := by
  induction names generalizing sib tensors order with
  | nil =>
    cases h
    exact hn
  | cons name names ih =>
    unfold mergeTensors at h
    split at h
    · exact ih hn h
    · split at h
      · cases h
      · refine ih ?_ h
        intro key info hkey
        simp only [HashMap.insert] at hkey
        split at hkey
        · cases hkey
          exact Nat.mod_lt _ (by decide)
        · exact hn key info hkey

theorem mergeSplits_narrow {file file' : GgufFile} (hn : Narrow file.tensors)
    (h : mergeSplits m fs file i siblings = .ok file') : Narrow file'.tensors := by
  induction siblings generalizing file i with
  | nil =>
    cases h
    exact hn
  | cons sibling siblings ih =>
    obtain ⟨parsed, -, h⟩ := Outcome.bind_eq_ok.mp h
    obtain ⟨⟨tensors, order⟩, hmerge, h⟩ := Outcome.bind_eq_ok.mp h
    exact ih (mergeTensors_narrow hn hmerge) h

theorem open_narrow {file : GgufFile} (h : GgufFile.open m fs path = .ok file) : Narrow file.tensors := by
  obtain ⟨part0, hpart, h⟩ := Outcome.bind_eq_ok.mp h
  obtain ⟨header, -, -, htensors, -⟩ := openOneSplit_ok hpart
  have hn : Narrow part0.tensors := by
    rw [htensors]
    intro name info
    exact update_split
  dsimp only at h
  split at h
  · cases h
    exact hn
  · exact mergeSplits_narrow hn h

/-- The names of one index differ, and no part behind the 65536th has a tensor. -/
def PartSound (m : Machine) (fs : FileSystem) (p : GgufPath × Nat) : Prop :=
  ∀ header, readIndex m fs p.1 = some header →
    (header.infos.map (·.name)).Nodup ∧ (header.infos ≠ [] → p.2 < 2 ^ 16)

/-- The order and the map hold exactly these records. -/
structure Indexed (tensors : HashMap TensorInfo) (order : List String)
    (recs : List (Nat × TensorInfo)) : Prop where
  names : order = recs.map (·.2.name)
  nodup : order.Nodup
  finds : ∀ key, tensors key =
    (recs.find? (·.2.name == key)).map fun p => { p.2 with splitIdx := p.1 }

theorem Indexed.agrees {file : GgufFile} (h : Indexed file.tensors file.tensorOrder recs) :
    IndexAgrees file recs := by
  refine ⟨h.nodup, ?_, ?_, h.names ▸ h.nodup, ?_⟩
  · intro name
    rw [h.names, h.finds, Option.isSome_map, List.find?_isSome]
    simp
  · intro p hp
    rw [h.names]
    exact List.mem_map.mpr ⟨p, hp, rfl⟩
  · intro name info hinfo
    rw [h.finds] at hinfo
    obtain ⟨p, hp, rfl⟩ := Option.map_eq_some_iff.mp hinfo
    exact ⟨p, List.mem_of_find?_eq_some hp, by simpa using List.find?_some hp, rfl⟩

theorem inSplit_of_lt (info : TensorInfo) (h : i < 2 ^ 16) :
    info.inSplit i = { info with splitIdx := i } := by
  rw [TensorInfo.inSplit, Nat.mod_eq_of_lt h]

theorem find_records (infos : List TensorInfo) (i : Nat) (key : String) :
    (infos.map fun info => (i, info)).find? (·.2.name == key) =
      (infos.find? (·.name == key)).map fun info => (i, info) := List.find?_map ..

theorem header_find {header : Header} (hd : (header.infos.map (·.name)).Nodup) (key : String) :
    header.tensors key = header.infos.find? (·.name == key) := by
  unfold Header.tensors
  refine (foldl_insert TensorInfo.name id hd HashMap.empty key).trans ?_
  simp [HashMap.empty]

theorem header_mem {header : Header} (hd : (header.infos.map (·.name)).Nodup)
    (hr : r ∈ header.infos) : header.tensors r.name = some r := by
  rw [header_find hd]
  cases hf : header.infos.find? (·.name == r.name) with
  | none => exact absurd (List.find?_eq_none.mp hf r hr) (by simp)
  | some t =>
    have hname : t.name = r.name := by simpa using List.find?_some hf
    rw [List.inj_on_of_nodup_map hd (List.mem_of_find?_eq_some hf) hr hname]

theorem part0_indexed {header : Header} (hd : (header.infos.map (·.name)).Nodup) :
    Indexed (header.tensors.update (.inSplit 0)) (header.infos.map (·.name))
      (header.infos.map fun info => (0, info)) := by
  refine ⟨by simp, hd, ?_⟩
  intro key
  rw [find_records, HashMap.update, header_find hd, Option.map_map]
  rfl

theorem mergeTensors_ok {infos : List TensorInfo} (hd : (infos.map (·.name)).Nodup)
    (hsib : ∀ r ∈ infos, sib r.name = some (r.inSplit i))
    (h : mergeTensors i sib tensors order (infos.map (·.name)) = .ok (tensors', order')) :
    (∀ r ∈ infos, tensors r.name = none) ∧ order' = order ++ infos.map (·.name) ∧
      ∀ key, tensors' key = ((infos.find? (·.name == key)).map (.inSplit i)).or (tensors key) := by
  induction infos generalizing sib tensors order with
  | nil =>
    cases h
    exact ⟨by simp, by simp, fun key => rfl⟩
  | cons r rs ih =>
    obtain ⟨hnot, hrest⟩ := List.nodup_cons.mp hd
    have hne : ∀ r' ∈ rs, ¬ r'.name = r.name :=
      fun r' hr' heq => hnot (List.mem_map.mpr ⟨r', hr', heq⟩)
    rw [List.map_cons] at h
    unfold mergeTensors at h
    rw [hsib r List.mem_cons_self] at h
    dsimp only at h
    split at h
    · cases h
    · rename_i hfree
      have hsib' : ∀ r' ∈ rs, (sib.remove r.name) r'.name = some (r'.inSplit i) := by
        intro r' hr'
        rw [HashMap.remove, if_neg (hne r' hr')]
        exact hsib r' (List.mem_cons_of_mem _ hr')
      obtain ⟨hnone, horder, hfind⟩ := ih hrest hsib' h
      refine ⟨?_, ?_, ?_⟩
      · intro r' hr'
        rcases List.mem_cons.mp hr' with rfl | hr'
        · simpa using hfree
        · have hthis := hnone r' hr'
          rwa [HashMap.insert, if_neg (hne r' hr')] at hthis
      · rw [horder, List.append_assoc, List.map_cons, List.singleton_append]
      · intro key
        rw [hfind]
        by_cases hkey : r.name = key
        · subst hkey
          have hgone : rs.find? (·.name == r.name) = none := by
            rw [List.find?_eq_none]
            intro r' hr' heq
            exact hne r' hr' (by simpa using heq)
          rw [hgone, List.find?_cons_of_pos (by simp)]
          simp [HashMap.insert, TensorInfo.inSplit]
        · rw [List.find?_cons_of_neg (by simpa using hkey)]
          have hother : ¬ key = r.name := fun heq => hkey heq.symm
          simp [HashMap.insert, hother]

theorem Indexed.merge {header : Header} (hx : Indexed tensors order recs)
    (hd : (header.infos.map (·.name)).Nodup) (hi : header.infos ≠ [] → i < 2 ^ 16)
    (h : mergeTensors i (header.tensors.update (.inSplit i)) tensors order
      (header.infos.map (·.name)) = .ok (tensors', order')) :
    Indexed tensors' order' (recs ++ header.infos.map fun info => (i, info)) := by
  have hsib : ∀ r ∈ header.infos, (header.tensors.update (.inSplit i)) r.name = some (r.inSplit i) := by
    intro r hr
    rw [HashMap.update, header_mem hd hr]
    rfl
  obtain ⟨hnone, horder, hfind⟩ := mergeTensors_ok hd hsib h
  refine ⟨?_, ?_, ?_⟩
  · rw [horder, hx.names, List.map_append, List.map_map]
    rfl
  · rw [horder, List.nodup_append]
    refine ⟨hx.nodup, hd, ?_⟩
    rintro name hname other hother rfl
    obtain ⟨r, hr, rfl⟩ := List.mem_map.mp hother
    have hfree := hnone r hr
    rw [hx.finds, Option.map_eq_none_iff, List.find?_eq_none] at hfree
    rw [hx.names] at hname
    obtain ⟨p, hp, heq⟩ := List.mem_map.mp hname
    exact hfree p hp (by simpa using heq)
  · intro key
    rw [hfind, hx.finds, List.find?_append, find_records]
    cases hr : header.infos.find? (·.name == key) with
    | none => simp
    | some r =>
      have hin := List.mem_of_find?_eq_some hr
      have hname : r.name = key := by simpa using List.find?_some hr
      have hfree := hnone r hin
      rw [hx.finds, hname, Option.map_eq_none_iff] at hfree
      rw [hfree, Option.map_some, inSplit_of_lt r (hi (List.ne_nil_of_mem hin))]
      rfl

theorem mergeSplits_indexed {file file' : GgufFile}
    (hx : Indexed file.tensors file.tensorOrder recs)
    (hsound : ∀ p ∈ siblings.zipIdx i, PartSound m fs p)
    (h : mergeSplits m fs file i siblings = .ok file') :
    Indexed file'.tensors file'.tensorOrder (recs ++ (siblings.zipIdx i).flatMap (partRecords m fs)) := by
  induction siblings generalizing file i recs with
  | nil =>
    cases h
    simpa using hx
  | cons sibling siblings ih =>
    obtain ⟨parsed, hpart, h⟩ := Outcome.bind_eq_ok.mp h
    obtain ⟨⟨tensors, order⟩, hmerge, h⟩ := Outcome.bind_eq_ok.mp h
    obtain ⟨header, hread, -, htensors, horder⟩ := openOneSplit_ok hpart
    rw [htensors, horder] at hmerge
    rw [List.zipIdx_cons] at hsound ⊢
    obtain ⟨hd, hi⟩ := hsound (sibling, i) List.mem_cons_self header hread
    have hrecs : partRecords m fs (sibling, i) = header.infos.map fun info => (i, info) := by
      unfold partRecords
      rw [hread]
      rfl
    have hrest := ih (hx.merge hd hi hmerge) (fun p hp => hsound p (List.mem_cons_of_mem _ hp)) h
    rw [List.flatMap_cons, hrecs, ← List.append_assoc]
    exact hrest

/-- What an accepted file was read from. -/
theorem open_indexed {file : GgufFile} (hsound : ∀ p ∈ (partPaths m fs path).zipIdx, PartSound m fs p)
    (h : GgufFile.open m fs path = .ok file) :
    Indexed file.tensors file.tensorOrder (records m fs path) := by
  obtain ⟨part0, hpart, h⟩ := Outcome.bind_eq_ok.mp h
  obtain ⟨header, hread, hmeta, htensors, horder⟩ := openOneSplit_ok hpart
  have hrecs : partRecords m fs (path, 0) = header.infos.map fun info => (0, info) := by
    unfold partRecords
    rw [hread]
    rfl
  unfold records
  unfold partPaths at hsound ⊢
  rw [hread] at hsound ⊢
  rw [hmeta] at h
  dsimp only [Option.bind_some] at h hsound ⊢
  cases hsib : siblingPaths header.metadata path with
  | none =>
    rw [hsib] at h hsound
    cases h
    obtain ⟨hd, -⟩ := hsound (path, 0) List.mem_cons_self header hread
    have hx := part0_indexed hd
    rw [← htensors, ← horder] at hx
    simpa [hrecs] using hx
  | some siblings =>
    rw [hsib] at h hsound
    dsimp only at h hsound ⊢
    rw [List.zipIdx_cons] at hsound ⊢
    obtain ⟨hd, -⟩ := hsound (path, 0) List.mem_cons_self header hread
    have hx := part0_indexed hd
    rw [← htensors, ← horder] at hx
    rw [List.flatMap_cons, hrecs]
    exact mergeSplits_indexed hx (fun p hp => hsound p (List.mem_cons_of_mem _ hp)) h

theorem part_records {p : GgufPath × Nat} {header : Header} (hp : p ∈ (partPaths m fs path).zipIdx)
    (hread : readIndex m fs p.1 = some header) :
    (header.infos.map fun info => (p.2, info)).Sublist (records m fs path) := by
  have hrecs : partRecords m fs p = header.infos.map fun info => (p.2, info) := by
    unfold partRecords
    rw [hread]
    rfl
  rw [← hrecs]
  exact List.sublist_flatten_of_mem (List.mem_map.mpr ⟨p, hp, rfl⟩)

/-- The index of an accepted file agrees with its records exactly where every part
names each of its tensors once, within the parts that sixteen bits can number. -/
theorem index_agrees_iff {file : GgufFile} (h : GgufFile.open m fs path = .ok file) :
    IndexAgrees file (records m fs path) ↔ ∀ p ∈ (partPaths m fs path).zipIdx, PartSound m fs p := by
  constructor
  · intro hagree p hp header hread
    have hsub := part_records hp hread
    constructor
    · have hnames := hagree.sole.sublist (hsub.map (·.2.name))
      rwa [List.map_map] at hnames
    · intro hne
      obtain ⟨r, hr⟩ := List.exists_mem_of_ne_nil _ hne
      have hin : (p.2, r) ∈ records m fs path := hsub.subset (List.mem_map.mpr ⟨r, hr, rfl⟩)
      obtain ⟨info, hinfo⟩ := Option.isSome_iff_exists.mp
        ((hagree.keys r.name).mp (hagree.listed _ hin))
      obtain ⟨q, hq, hname, rfl⟩ := hagree.carried r.name info hinfo
      have hsame : q = (p.2, r) := List.inj_on_of_nodup_map hagree.sole hq hin hname
      have hnarrow := open_narrow h r.name _ hinfo
      rw [hsame] at hnarrow
      exact hnarrow
  · intro hsound
    exact (open_indexed hsound h).agrees

/-- A record of a tensor `a` without dimensions. -/
def scalarRecord : List UInt8 :=
  [1, 0, 0, 0, 0, 0, 0, 0, 0x61] ++ [0, 0, 0, 0] ++ [0, 0, 0, 0] ++ [0, 0, 0, 0, 0, 0, 0, 0]

/-- A file with as many of them and no metadata. -/
def scalarFile (count : UInt8) (h : count.toNat ≤ 2) : Mmap where
  bytes := [0x47, 0x47, 0x55, 0x46, 3, 0, 0, 0, count, 0, 0, 0, 0, 0, 0, 0, 0, 0, 0, 0, 0, 0, 0, 0] ++
    (List.replicate count.toNat scalarRecord).flatten
  fits := by
    have hlen : (List.replicate count.toNat scalarRecord).flatten.length = count.toNat * 25 := by
      simp [scalarRecord]
    rw [List.length_append, hlen]
    simp only [List.length_cons, List.length_nil]
    omega

def model : GgufPath := ⟨"", some "model.gguf".toList⟩

theorem one_record_agrees : ∃ file,
    GgufFile.open (hosted 1000) (fun _ => some (scalarFile 1 (by decide))) model = .ok file ∧
      IndexAgrees file (records (hosted 1000) (fun _ => some (scalarFile 1 (by decide))) model) := by
  have horder : (match GgufFile.open (hosted 1000) (fun _ => some (scalarFile 1 (by decide))) model with
    | .ok file => file.tensorOrder
    | _ => []) = ["a"] := by decide +kernel
  have hparts : partPaths (hosted 1000) (fun _ => some (scalarFile 1 (by decide))) model = [model] := by
    decide +kernel
  have hnames : (readIndex (hosted 1000) (fun _ => some (scalarFile 1 (by decide))) model).map
      (fun header => header.infos.map (·.name)) = some ["a"] := by decide +kernel
  cases h : GgufFile.open (hosted 1000) (fun _ => some (scalarFile 1 (by decide))) model with
  | err e =>
    rw [h] at horder
    cases horder
  | fault f =>
    rw [h] at horder
    cases horder
  | ok file =>
    refine ⟨file, rfl, (index_agrees_iff h).mpr ?_⟩
    intro p hp header hread
    rw [hparts, List.zipIdx_singleton, List.mem_singleton] at hp
    subst hp
    rw [hread, Option.map_some, Option.some.injEq] at hnames
    rw [hnames]
    exact ⟨by decide, fun _ => by decide⟩

/-- Two records of one name are accepted. -/
theorem same_name_accepted : ∃ file,
    GgufFile.open (hosted 1000) (fun _ => some (scalarFile 2 (by decide))) model = .ok file ∧
      ¬ IndexAgrees file (records (hosted 1000) (fun _ => some (scalarFile 2 (by decide))) model) := by
  have horder : (match GgufFile.open (hosted 1000) (fun _ => some (scalarFile 2 (by decide))) model with
    | .ok file => file.tensorOrder
    | _ => []) = ["a", "a"] := by decide +kernel
  cases h : GgufFile.open (hosted 1000) (fun _ => some (scalarFile 2 (by decide))) model with
  | err e =>
    rw [h] at horder
    cases horder
  | fault f =>
    rw [h] at horder
    cases horder
  | ok file =>
    rw [h] at horder
    change file.tensorOrder = ["a", "a"] at horder
    refine ⟨file, rfl, ?_⟩
    intro hagree
    have hnodup := hagree.order
    rw [horder] at hnodup
    revert hnodup
    decide

end Flambeau.Quant
