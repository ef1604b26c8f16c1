import Mathlib.Data.Rat.Cast.Order
import NFSKit.Attributes

/-!
# Proofs: file attributes

Which numbers of a server the conversions accept, and when the two producers of attributes agree.
-/

namespace NFSKit

open Checked Paths Utf8 NFSClient NFSEventLoop

/-! ## The conversions -/

section Conversions

variable {stat : NfsStat64} {ent : Nfsdirent} {ents : List Nfsdirent} {path : Text} {n : Nat}

theorem fits_int64_iff : IntType.int64.Fits n ↔ n < 2 ^ 63 := by
  rw [IntType.fits_int64]
  omega

theorem fits_int32_iff : IntType.int32.Fits n ↔ n < 2 ^ 31 := by
  rw [IntType.fits_int32]
  omega

/-- The dates of a status are seconds and nanoseconds of the protocol. -/
theorem statDate_eq {sec nsec : Nat} (hsec : sec < 2 ^ 32) (hnsec : nsec < 2 ^ 32) :
    statDate sec nsec = some (date sec nsec) := by
  have hsec' : IntType.int64.convert sec = some (sec : Int) :=
    IntType.convert_eq_some (fits_int64_iff.mpr (by omega))
  have hnsec' : IntType.int64.convert nsec = some (nsec : Int) :=
    IntType.convert_eq_some (fits_int64_iff.mpr (by omega))
  simp only [statDate, hsec', hnsec', Option.bind_eq_bind, Option.bind_some]

/-- The dates of an entry have no parts below a microsecond. -/
theorem timevalDate_eq (t : Nfstime) :
    timevalDate t.timeval = some (date t.seconds (t.nseconds / 1000 * 1000 : Nat)) := by
  have hsec := t.seconds_lt
  have hnsec := t.nseconds_lt
  have hsec' : IntType.int64.convert t.timeval.tv_sec = some (t.seconds : Int) :=
    IntType.convert_eq_some (fits_int64_iff.mpr (by omega))
  have husec' : IntType.int64.convert t.timeval.tv_usec = some ((t.nseconds / 1000 : Nat) : Int) :=
    IntType.convert_eq_some (fits_int64_iff.mpr (by omega))
  have hmul : IntType.int64.mul ((t.nseconds / 1000 : Nat) : Int) 1000
      = some ((t.nseconds / 1000 * 1000 : Nat) : Int) := by
    have heq : ((t.nseconds / 1000 : Nat) : Int) * 1000 = ((t.nseconds / 1000 * 1000 : Nat) : Int) := by
      omega
    unfold IntType.mul
    rw [heq]
    exact IntType.convert_eq_some (fits_int64_iff.mpr (by omega))
  simp only [timevalDate, hsec', husec', hmul, Option.bind_eq_bind, Option.bind_some]

/-- The attributes of an item are built exactly if its size is a signed number. -/
theorem buildAttributes_eq (h : stat.FromServer) (path : Text) :
    buildAttributes stat path
      = if stat.nfs_size < 2 ^ 63 then
          some (attributes (lastComponent path) path stat.nfs_size stat.nfs_nlink
            (resourceTypeOfMode stat.nfs_mode) (date stat.nfs_mtime stat.nfs_mtime_nsec)
            (date stat.nfs_atime stat.nfs_atime_nsec) (date stat.nfs_ctime stat.nfs_ctime_nsec))
        else none := by
  have hmtime := statDate_eq h.mtime.1 h.mtime.2
  have hatime := statDate_eq h.atime.1 h.atime.2
  have hctime := statDate_eq h.ctime.1 h.ctime.2
  by_cases hsize : stat.nfs_size < 2 ^ 63
  · have hconvert : IntType.int64.convert stat.nfs_size = some (stat.nfs_size : Int) :=
      IntType.convert_eq_some (fits_int64_iff.mpr hsize)
    rw [if_pos hsize]
    simp only [buildAttributes, hconvert, hmtime, hatime, hctime, Option.bind_eq_bind, Option.bind_some]
  · have hconvert : IntType.int64.convert stat.nfs_size = none :=
      if_neg (mt fits_int64_iff.mp hsize)
    rw [if_neg hsize]
    simp only [buildAttributes, hconvert, Option.bind_eq_bind, Option.bind_none]

variable [Characters]

/-- The attributes of an entry are built exactly if its size is a signed number. -/
theorem entryAttributes_isSome (h : ent.FromServer) :
    (entryAttributes path ent).isSome ↔ ent.size < 2 ^ 63 := by
  obtain ⟨atime, hatime⟩ := h.atime
  obtain ⟨mtime, hmtime⟩ := h.mtime
  obtain ⟨ctime, hctime⟩ := h.ctime
  have hatime' := timevalDate_eq atime
  have hmtime' := timevalDate_eq mtime
  have hctime' := timevalDate_eq ctime
  rw [← fits_int64_iff, ← IntType.convert_isSome]
  unfold entryAttributes
  rw [hatime, hmtime, hctime, hatime', hmtime', hctime']
  cases IntType.int64.convert ent.size with
  | none => rfl
  | some size => rfl

/-- The listing has a dictionary for each entry that is not skipped. -/
theorem readdirAll_eq_some {dicts : List Attributes} :
    readdirAll path ents = some dicts ↔
      (ents.filter fun ent => isListed (ofCString ent.name)).map (entryAttributes path) = dicts.map some := by
  induction ents generalizing dicts with
  | nil =>
    simp only [readdirAll, List.filter_nil, List.map_nil, Option.some.injEq]
    exact eq_comm.trans (by rw [eq_comm (a := []), List.map_eq_nil_iff])
  | cons ent ents ih =>
    unfold readdirAll
    by_cases hlisted : isListed (ofCString ent.name)
    · rw [if_pos hlisted, List.filter_cons, if_pos hlisted, List.map_cons]
      rcases hdic : entryAttributes path ent with _ | dic
      · constructor
        · intro h
          cases h
        · intro h
          cases dicts with
          | nil => cases h
          | cons d ds => cases (List.cons.inj h).1
      · rcases hentries : readdirAll path ents with _ | entries
        · constructor
          · intro h
            cases h
          · intro h
            cases dicts with
            | nil => cases h
            | cons d ds =>
              rw [ih.mpr (List.cons.inj h).2] at hentries
              cases hentries
        · have hrest := ih.mp hentries
          rw [hrest, ← List.map_cons]
          exact ⟨fun h => by cases h; rfl,
            fun h => congrArg some (List.map_injective_iff.mpr (Option.some_injective _) h)⟩
    · rw [if_neg hlisted, List.filter_cons, if_neg hlisted]
      exact ih

/-- Each dictionary of a listing is that of an entry. -/
theorem exists_of_mem_readdirAll {dicts : List Attributes} {d : Attributes}
    (h : readdirAll path ents = some dicts) (hd : d ∈ dicts) :
    ∃ ent ∈ ents, entryAttributes path ent = some d := by
  have hmem : some d ∈ dicts.map some := List.mem_map_of_mem hd
  rw [← readdirAll_eq_some.mp h] at hmem
  obtain ⟨ent, hent, hattributes⟩ := List.mem_map.mp hmem
  exact ⟨ent, List.mem_of_mem_filter hent, hattributes⟩

theorem entryAttributes_nameKey {d : Attributes} (h : entryAttributes path ent = some d) :
    d.nameKey = ofCString ent.name := by
  simp only [entryAttributes, Option.bind_eq_bind, Option.bind_eq_some_iff, Option.some.injEq] at h
  obtain ⟨size, -, mtime, -, atime, -, ctime, -, rfl⟩ := h
  rfl

/-- The listing goes through exactly if every listed entry has a signed size. -/
theorem readdirAll_isSome (h : ∀ ent ∈ ents, ent.FromServer) :
    (readdirAll path ents).isSome ↔
      ∀ ent ∈ ents, isListed (ofCString ent.name) → ent.size < 2 ^ 63 := by
  induction ents with
  | nil => simp [readdirAll]
  | cons ent ents ih =>
    obtain ⟨hent, hents⟩ := List.forall_mem_cons.mp h
    have hrest := ih hents
    have hdic := @entryAttributes_isSome ent path _ hent
    rw [List.forall_mem_cons, ← hrest, readdirAll]
    by_cases hlisted : isListed (ofCString ent.name)
    · rw [if_pos hlisted]
      simp only [hlisted, forall_const, ← hdic]
      cases entryAttributes path ent with
      | none => simp
      | some dic =>
        cases readdirAll path ents with
        | none => simp
        | some entries => simp
    · rw [if_neg hlisted]
      simp [hlisted]

/-- Which numbers of a server the conversions of the four operations accept. -/
theorem conversions_accept (hstat : stat.FromServer) (hents : ∀ ent ∈ ents, ent.FromServer)
    (path : Text) :
    ((connectIdentifiers (.ok stat)).isSome ↔ stat.nfs_uid < 2 ^ 31 ∧ stat.nfs_gid < 2 ^ 31) ∧
    ((contentsFileSize (.ok stat)).isSome ↔ stat.nfs_size < 2 ^ 63) ∧
    ((attributesOfItem (.ok stat) path).isSome ↔ stat.nfs_size < 2 ^ 63) ∧
    ((readdirAll path ents).isSome ↔ ∀ ent ∈ ents, isListed (ofCString ent.name) → ent.size < 2 ^ 63) := by
  refine ⟨?_, ?_, ?_, readdirAll_isSome hents⟩
  · rw [← fits_int32_iff, ← fits_int32_iff, ← IntType.convert_isSome, ← IntType.convert_isSome]
    unfold connectIdentifiers
    dsimp only
    cases IntType.int32.convert stat.nfs_uid with
    | none => simp
    | some uid =>
      cases IntType.int32.convert stat.nfs_gid with
      | none => simp
      | some gid => simp
  · rw [← fits_int64_iff, ← IntType.convert_isSome]
    unfold contentsFileSize
    rw [Option.isSome_map]
  · unfold attributesOfItem
    dsimp only
    rw [buildAttributes_eq hstat, Option.isSome_map]
    split
    · rename_i hsize
      exact iff_of_true rfl hsize
    · rename_i hsize
      exact iff_of_false (by simp) hsize

end Conversions

/-- The numbers of an ordinary directory of user 501 with one file of 10 bytes. -/
theorem conversions_accept_ordinary :
    (connectIdentifiers (.ok ⟨0o040755, 2, 501, 20, 64, 0, 0, 0, 0, 0, 0⟩)).isSome ∧
      (@readdirAll markCharacters ['/'] [⟨[0x61], 1, 10, 1, ⟨0, 0⟩, ⟨0, 0⟩, ⟨0, 0⟩⟩]).isSome := by
  have epoch : ∃ t : Nfstime, (⟨0, 0⟩ : Timeval) = t.timeval := ⟨⟨0, 0, by decide, by decide⟩, rfl⟩
  obtain ⟨hconnect, -, -, hlist⟩ := @conversions_accept
    ⟨0o040755, 2, 501, 20, 64, 0, 0, 0, 0, 0, 0⟩ [⟨[0x61], 1, 10, 1, ⟨0, 0⟩, ⟨0, 0⟩, ⟨0, 0⟩⟩] markCharacters
    ⟨by decide, by decide, by decide, by decide, by decide, by decide⟩
    (by simpa using ⟨by decide, epoch, epoch, epoch⟩) ['/']
  exact ⟨hconnect.mpr (by decide), hlist.mpr (by decide)⟩

/-- The user of an unmapped owner, 2 ^ 32 - 2, is no `Int32`. -/
theorem connect_traps :
    ¬∀ stat : NfsStat64, stat.FromServer → (connectIdentifiers (.ok stat)).isSome := by
  intro h
  have hsome := h ⟨0o040755, 2, 4294967294, 4294967294, 64, 0, 0, 0, 0, 0, 0⟩
    ⟨by decide, by decide, by decide, by decide, by decide, by decide⟩
  exact absurd hsome (by decide)

/-! ## The two producers -/

section Agreement

variable {o : RemoteObject} {path : Text}

/-- The permissions are not among the type bits. -/
theorem modeBits_and (o : RemoteObject) : o.stat.nfs_mode &&& S_IFMT = o.kind.modeBits := by
  have hlow : o.permissions &&& S_IFMT = 0 := by
    refine Nat.eq_of_testBit_eq fun i => ?_
    have hmask : S_IFMT = 15 <<< 12 := by decide
    rw [Nat.testBit_and, Nat.zero_testBit, hmask, Nat.testBit_shiftLeft]
    by_cases hi : 12 ≤ i
    · have hzero : o.permissions.testBit i = false :=
        Nat.testBit_lt_two_pow (Nat.lt_of_lt_of_le o.permissions_lt (Nat.pow_le_pow_right (by omega) hi))
      rw [hzero, Bool.false_and]
    · simp [hi]
  have hkind : o.kind.modeBits &&& S_IFMT = o.kind.modeBits := by
    cases o.kind <;> decide
  unfold RemoteObject.stat
  dsimp only
  rw [Nat.and_or_distrib_right, hlow, hkind, Nat.or_zero]

/-- The mode bits and the type code of an object give the same type. -/
theorem resourceType_agree (o : RemoteObject) :
    resourceTypeOfMode o.stat.nfs_mode = resourceTypeOfEntry o.kind.ftype3 := by
  unfold resourceTypeOfMode
  dsimp only
  rw [modeBits_and]
  cases o.kind <;> decide

theorem resourceType_directory (o : RemoteObject) :
    resourceTypeOfEntry o.kind.ftype3 = .directory ↔ o.kind = .directory := by
  cases o.kind <;> decide

theorem resourceType_symbolicLink (o : RemoteObject) :
    resourceTypeOfEntry o.kind.ftype3 = .symbolicLink ↔ o.kind = .symbolicLink := by
  cases o.kind <;> decide

/-- Two dates are equal if they are the same number of nanoseconds. -/
theorem date_inj {sec nsec sec' nsec' : Nat} :
    date sec nsec = date sec' nsec' ↔ sec * 1000000000 + nsec = sec' * 1000000000 + nsec' := by
  have hscale (m n : Nat) : date m n = ((m * 1000000000 + n : Nat) : Rat) / 1000000000 := by
    unfold date
    push_cast
    rw [add_div, mul_div_cancel_right₀ _ (by norm_num)]
  rw [hscale, hscale, div_left_inj' (by norm_num)]
  exact Nat.cast_inj

/-- What an object reports keeps to the bounds of the protocol, up to its identifiers and size. -/
theorem stat_dates (t : Nfstime) : statDate t.seconds t.nseconds = some (date t.seconds t.nseconds) :=
  statDate_eq t.seconds_lt t.nseconds_lt

/-- The attributes that the status of an object gives for a path. -/
theorem buildAttributes_object {size : Int} (hsize : IntType.int64.convert o.size = some size)
    (path : Text) :
    buildAttributes o.stat path
      = some (attributes (lastComponent path) path size o.nlink
          (resourceTypeOfEntry o.kind.ftype3) (date o.mtime.seconds o.mtime.nseconds)
          (date o.atime.seconds o.atime.nseconds) (date o.ctime.seconds o.ctime.nseconds)) := by
  have hsize : IntType.int64.convert o.stat.nfs_size = some size := hsize
  have hmtime : statDate o.stat.nfs_mtime o.stat.nfs_mtime_nsec = _ := stat_dates o.mtime
  have hatime : statDate o.stat.nfs_atime o.stat.nfs_atime_nsec = _ := stat_dates o.atime
  have hctime : statDate o.stat.nfs_ctime o.stat.nfs_ctime_nsec = _ := stat_dates o.ctime
  simp only [buildAttributes, hsize, hmtime, hatime, hctime, resourceType_agree, Option.bind_eq_bind,
    Option.bind_some]
  rfl

/-- The three times have no part below a microsecond. -/
def RemoteObject.WholeMicroseconds (o : RemoteObject) : Prop :=
  1000 ∣ o.mtime.nseconds ∧ 1000 ∣ o.atime.nseconds ∧ 1000 ∣ o.ctime.nseconds

/-- Nanoseconds since the epoch. -/
def Nfstime.nanoseconds (t : Nfstime) : Nat := t.seconds * 1000000000 + t.nseconds

/-- The same without what is below a microsecond. -/
def Nfstime.truncated (t : Nfstime) : Nat := t.seconds * 1000000000 + t.nseconds / 1000 * 1000

/-- Two objects of the same type, size and link count, where the times of the first are those of the
second without what is below a microsecond. -/
structure RemoteObject.Resembles (o' o : RemoteObject) : Prop where
  type : resourceTypeOfEntry o'.kind.ftype3 = resourceTypeOfEntry o.kind.ftype3
  size : o'.size = o.size
  nlink : o'.nlink = o.nlink
  mtime : o'.mtime.nanoseconds = o.mtime.truncated
  atime : o'.atime.nanoseconds = o.atime.truncated
  ctime : o'.ctime.nanoseconds = o.ctime.truncated

theorem RemoteObject.resembles_self : o.Resembles o ↔ o.WholeMicroseconds := by
  have hwhole (t : Nfstime) : t.nanoseconds = t.truncated ↔ 1000 ∣ t.nseconds := by
    unfold Nfstime.nanoseconds Nfstime.truncated
    omega
  constructor
  · intro h
    exact ⟨(hwhole _).mp h.mtime, (hwhole _).mp h.atime, (hwhole _).mp h.ctime⟩
  · rintro ⟨hmtime, hatime, hctime⟩
    exact ⟨rfl, rfl, rfl, (hwhole _).mpr hmtime, (hwhole _).mpr hatime, (hwhole _).mpr hctime⟩

variable [Characters] {o' : RemoteObject} {name : List UInt8} {d : Attributes}

/-- The attributes that the entry of an object gives. -/
theorem entryAttributes_object (h : entryAttributes path (o.dirent name) = some d) :
    ∃ size, IntType.int64.convert o.size = some size ∧
      d = attributes (ofCString name) (append path (ofCString name)) size o.nlink
        (resourceTypeOfEntry o.kind.ftype3) (date o.mtime.seconds (o.mtime.nseconds / 1000 * 1000 : Nat))
        (date o.atime.seconds (o.atime.nseconds / 1000 * 1000 : Nat))
        (date o.ctime.seconds (o.ctime.nseconds / 1000 * 1000 : Nat)) := by
  have hmtime : timevalDate (o.dirent name).mtime = _ := timevalDate_eq o.mtime
  have hatime : timevalDate (o.dirent name).atime = _ := timevalDate_eq o.atime
  have hctime : timevalDate (o.dirent name).ctime = _ := timevalDate_eq o.ctime
  rcases hsize : IntType.int64.convert (o.dirent name).size with _ | size
  · simp only [entryAttributes, hsize, Option.bind_eq_bind, Option.bind_none] at h
    cases h
  · simp only [entryAttributes, hsize, hmtime, hatime, hctime, Option.bind_eq_bind,
      Option.bind_some] at h
    exact ⟨size, hsize, (Option.some.inj h).symm⟩

/-- A path gives the dictionary of an entry exactly if it leads to an object like that of the entry. -/
theorem attributesOfItem_agree (h : entryAttributes path (o.dirent name) = some d)
    (hname : IsComponent (ofCString name)) :
    attributesOfItem (.ok o'.stat) d.pathKey = some (.ok d) ↔ o'.Resembles o := by
  obtain ⟨size, hsize, rfl⟩ := entryAttributes_object h
  have hpath : lastComponent (append path (ofCString name)) = ofCString name := lastComponent_append hname
  have hvalue := IntType.eq_of_convert hsize
  unfold attributesOfItem
  dsimp only
  rw [Option.map_eq_some_iff]
  constructor
  · rintro ⟨d', hbuild, heq⟩
    obtain rfl := Except.ok.inj heq
    cases hsize' : IntType.int64.convert o'.size with
    | none =>
      have hstat : IntType.int64.convert o'.stat.nfs_size = none := hsize'
      simp only [buildAttributes, hstat, Option.bind_eq_bind, Option.bind_none] at hbuild
      cases hbuild
    | some size' =>
      rw [buildAttributes_object hsize'] at hbuild
      have hvalue' := IntType.eq_of_convert hsize'
      injection Option.some.inj hbuild with _ _ hsizes hnlink htype _ _ _ hmtime hatime hctime
      exact ⟨htype, by omega, hnlink, date_inj.mp hmtime, date_inj.mp hatime, date_inj.mp hctime⟩
  · intro hlike
    refine ⟨_, ?_, rfl⟩
    have hsize' : IntType.int64.convert o'.size = some size := by
      rw [hlike.size]
      exact hsize
    rw [buildAttributes_object hsize', hlike.type, hlike.nlink, date_inj.mpr hlike.mtime,
      date_inj.mpr hlike.atime, date_inj.mpr hlike.ctime]
    exact congrArg (fun n => some (attributes n _ _ _ _ _ _ _)) hpath

end Agreement

end NFSKit
