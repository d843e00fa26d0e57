import Aufs.Verify.ParseArgs

/-! Which devices `ParseArgs` accepts.

`VerifyDevice` compares the device's size with the product of zone count and zone size, but the
product is one of `uint32_t`, and a device that cannot be opened has the largest size there is. -/

namespace Aufs
open Word

/-! ## What the arguments ask for -/

/-- The device named last. -/
def argDevice (argv : List String) : String := (lastOf Setting.device? (settings argv)).getD ""

/-- The zone size given last, as a `size_t`. -/
def argZoneSize (argv : List String) : Nat :=
  ((lastOf Setting.zoneSize? (settings argv)).map sizeValue).getD 16384

/-- The zone count given last, as a `size_t`. -/
def argNumZones (argv : List String) : Nat :=
  ((lastOf Setting.numZones? (settings argv)).map sizeValue).getD 0

/-- Of `numZones` zones, those that one map block can count. -/
def cappedZones (argv : List String) (numZones : Nat) : Nat :=
  min (blockSizeOf (u32 (argZoneSize argv)) * 8) (u32 numZones)

/-- The size of these zones, without the wrap at `2 ^ 32`. -/
def cappedBytes (argv : List String) (numZones : Nat) : Nat :=
  cappedZones argv numZones * u32 (argZoneSize argv)

/-- Arguments that pass every test for `numZones` zones, the device's size apart. -/
structure Plausible (argv : List String) (numZones : Nat) : Prop where
  convert : Convert (settings argv)
  named : argDevice argv ≠ ""
  large : 512 ≤ u32 (argZoneSize argv)
  pow : isPowerOfTwo (u32 (argZoneSize argv)) = true
  three_lt : 3 < cappedZones argv numZones

/-- The zone count for a device of `size` bytes: the one given, or as many as go on the device. -/
def zonesFor (argv : List String) (size : Nat) : Nat :=
  if argNumZones argv = 0 then size / argZoneSize argv else argNumZones argv

theorem u32_le : u32 n ≤ n := Nat.mod_le _ _

theorem parseArgsLoop_ok {args : Args} (hargs : parseArgsLoop argv
      { device := "", dir := "", zoneSize := 16384, numZones := 0 } = .ok args) :
    Convert (settings argv) ∧ args.device = argDevice argv ∧ args.zoneSize = argZoneSize argv ∧
      args.numZones = argNumZones argv := by
  rw [parseArgsLoop_eq] at hargs
  rcases foldlM_apply_cases (settings argv)
      { device := "", dir := "", zoneSize := 16384, numZones := 0 } with
    ⟨⟨what, herr⟩, -⟩ | ⟨args', hok, hconv, hdev, hsize, hcount⟩
  · rw [herr] at hargs
    cases hargs
  · cases hok.symm.trans hargs
    exact ⟨hconv, hdev, hsize, hcount⟩

theorem exists_parseArgsLoop (h : Convert (settings argv)) :
    ∃ args, parseArgsLoop argv { device := "", dir := "", zoneSize := 16384, numZones := 0 } =
      .ok args := by
  rw [parseArgsLoop_eq]
  rcases foldlM_apply_cases (settings argv)
      { device := "", dir := "", zoneSize := 16384, numZones := 0 } with
    ⟨-, hbad⟩ | ⟨args, hok, -⟩
  · exact absurd h hbad
  · exact ⟨args, hok⟩

/-- What `ParseArgs` returns is what was asked for, and passed the test of the device's size. -/
theorem parseArgs_sound (h : parseArgs deviceSize argv = .ok config) :
    config.device = argDevice argv ∧
      config.numZones * config.zoneSize =
        cappedBytes argv (zonesFor argv (deviceSize (argDevice argv))) ∧
      Plausible argv (zonesFor argv (deviceSize (argDevice argv))) ∧
      u32 (cappedBytes argv (zonesFor argv (deviceSize (argDevice argv)))) ≤
        deviceSize (argDevice argv) := by
  have hnamed : argDevice argv ≠ "" := by
    intro hempty
    obtain ⟨args, -, hargs, -⟩ := parseArgs_eq_ok h
    obtain ⟨-, hdev, -⟩ := parseArgsLoop_ok hargs
    rw [parseArgs_of_loop hargs, if_pos (hdev.trans hempty)] at h
    cases h
  obtain ⟨args, numZones, hargs, hnum, hmake, hverify⟩ := parseArgs_eq_ok h
  obtain ⟨hconv, hdev, hsize, hcount⟩ := parseArgsLoop_ok hargs
  obtain ⟨hdevice, hzs, hn, -⟩ := parsedConfiguration_eq_ok hmake
  obtain ⟨-, hlarge, hpow, hthree, hfit⟩ := verifyConfiguration_eq_ok hverify
  have hzones : numZones = zonesFor argv (deviceSize (argDevice argv)) := by
    rw [defaultNumZones, hcount, hsize, hdev] at hnum
    unfold zonesFor
    split at hnum
    · next hzero =>
      rw [if_pos hzero]
      split at hnum
      · cases hnum
      · cases hnum
        rfl
    · next hzero =>
      cases hnum
      rw [if_neg hzero]
  rw [← hzones]
  rw [hsize] at hzs
  rw [Configuration.blockSize, hzs] at hn
  rw [hzs] at hlarge hpow
  rw [hn] at hthree
  rw [hdevice, hdev, hzs, hn] at hfit
  rw [hdevice, hdev, hzs, hn]
  exact ⟨rfl, rfl, ⟨hconv, hnamed, hlarge, hpow, hthree⟩, hfit⟩

/-- Plausible arguments are accepted if the size of the zones, cut to 32 bits, is at most that of
the device. -/
theorem exists_parseArgs {deviceSize : String → Nat}
    (P : Plausible argv (zonesFor argv (deviceSize (argDevice argv))))
    (hfit : u32 (cappedBytes argv (zonesFor argv (deviceSize (argDevice argv)))) ≤
      deviceSize (argDevice argv)) : ∃ config, parseArgs deviceSize argv = .ok config := by
  obtain ⟨args, hargs⟩ := exists_parseArgsLoop P.convert
  obtain ⟨-, hdev, hsize, hcount⟩ := parseArgsLoop_ok hargs
  have hlarge := P.large
  have hnum : defaultNumZones deviceSize args =
      .ok (zonesFor argv (deviceSize (argDevice argv))) := by
    have hne : argZoneSize argv ≠ 0 := by
      intro h0
      rw [h0] at hlarge
      exact absurd hlarge (by decide)
    rw [defaultNumZones, zonesFor, hcount, hsize, hdev, if_neg hne]
    split
    · rfl
    · rfl
  rw [parseArgs_of_loop hargs, hdev, if_neg P.named, hnum, hsize]
  generalize zonesFor argv (deviceSize (argDevice argv)) = numZones at P hfit
  rcases parsedConfiguration_cases (argDevice argv) args.dir numZones (argZoneSize argv) with
    ⟨hsmall, -⟩ | ⟨-, config, hmake⟩
  · exact absurd hsmall (by unfold sizeofInode; omega)
  · obtain ⟨hdevice, hzs, hn, -⟩ := parsedConfiguration_eq_ok hmake
    rw [Configuration.blockSize, hzs] at hn
    have hok : verifyConfiguration deviceSize config = .ok config := by
      have hthree : ¬config.numZones ≤ 3 := by
        rw [hn]
        exact Nat.not_le.mpr P.three_lt
      have hdevsize : ¬deviceSize config.device < u32 (config.numZones * config.zoneSize) := by
        rw [hdevice, hn, hzs]
        exact Nat.not_lt.mpr hfit
      have hlt : ¬config.zoneSize < 512 := by
        rw [hzs]
        exact Nat.not_lt.mpr hlarge
      have hpow : isPowerOfTwo config.zoneSize = true := by
        rw [hzs]
        exact P.pow
      simp [verifyConfiguration, verifyZoneSize, verifyZones, verifyDevice, hthree, hdevsize, hlt,
        hpow]
    refine ⟨config, ?_⟩
    change parsedConfiguration _ _ _ _ >>= _ = _
    rw [hmake]
    exact hok

/-! ## Devices that are too small -/

/-- The device could be opened and holds all zones. -/
def Configuration.FitsOn (config : Configuration) (files : Files) : Prop :=
  ∃ size, files config.device = some size ∧ config.numZones * config.zoneSize ≤ size

/-- If `ParseArgs` accepts the arguments, the zones fit on the device. -/
def FitsIfAccepted (files : Files) (argv : List String) : Prop :=
  ∀ config, parseArgs files.deviceSize argv = .ok config → config.FitsOn files

/-- The arguments are plausible, and either the device cannot be opened, which counts as the largest
size there is; or a zone count was given whose zones are larger than the device, but not when their
size is cut to 32 bits. -/
def Overlooked (files : Files) (argv : List String) : Prop :=
  match files (argDevice argv) with
  | none => Plausible argv (zonesFor argv (2 ^ 64 - 1))
  | some size =>
    argNumZones argv ≠ 0 ∧ Plausible argv (argNumZones argv) ∧
      u32 (cappedBytes argv (argNumZones argv)) ≤ size ∧ size < cappedBytes argv (argNumZones argv)

/-- Without a zone count the device is divided into zones, and the zones fit. -/
theorem default_zones_fit (hzero : argNumZones argv = 0) (size : Nat) :
    cappedBytes argv (zonesFor argv size) ≤ size := by
  rw [cappedBytes, cappedZones, zonesFor, if_pos hzero]
  calc min (blockSizeOf (u32 (argZoneSize argv)) * 8) (u32 (size / argZoneSize argv)) *
        u32 (argZoneSize argv)
      ≤ u32 (size / argZoneSize argv) * u32 (argZoneSize argv) :=
        Nat.mul_le_mul_right _ (Nat.min_le_right _ _)
    _ ≤ size / argZoneSize argv * argZoneSize argv := Nat.mul_le_mul u32_le u32_le
    _ ≤ size := Nat.div_mul_le_self _ _

theorem cappedBytes_lt (argv : List String) (numZones : Nat) :
    cappedBytes argv numZones < 2 ^ 64 := by
  have hzones : cappedZones argv numZones ≤ 4096 * 8 :=
    Nat.le_trans (Nat.min_le_left _ _) (Nat.mul_le_mul_right _ blockSizeOf_le)
  calc cappedBytes argv numZones ≤ 4096 * 8 * 2 ^ 32 :=
        Nat.mul_le_mul hzones (Nat.le_of_lt u32_lt)
    _ < 2 ^ 64 := by decide

theorem fitsIfAccepted_iff (files : Files) (argv : List String) :
    FitsIfAccepted files argv ↔ ¬Overlooked files argv := by
  unfold FitsIfAccepted Overlooked
  cases hopen : files (argDevice argv) with
  | none =>
    have hsize : files.deviceSize (argDevice argv) = 2 ^ 64 - 1 := by
      rw [Files.deviceSize, hopen]
      rfl
    simp only
    constructor
    · intro hall P
      rw [← hsize] at P
      have hfit : u32 (cappedBytes argv (zonesFor argv (files.deviceSize (argDevice argv)))) ≤
          files.deviceSize (argDevice argv) := by
        rw [hsize]
        exact Nat.le_of_lt (Nat.lt_of_lt_of_le u32_lt (by decide))
      obtain ⟨config, hok⟩ := exists_parseArgs P hfit
      obtain ⟨size, hsome, -⟩ := hall config hok
      obtain ⟨hdev, -⟩ := parseArgs_sound hok
      rw [hdev, hopen] at hsome
      cases hsome
    · intro hover config hok
      obtain ⟨-, -, P, -⟩ := parseArgs_sound hok
      rw [hsize] at P
      exact absurd P hover
  | some size =>
    have hsize : files.deviceSize (argDevice argv) = u64 size := by rw [Files.deviceSize, hopen]
    have hle : u64 size ≤ size := Nat.mod_le _ _
    have hlt := cappedBytes_lt argv (argNumZones argv)
    simp only
    constructor
    · rintro hall ⟨hzero, P, hlow, hhigh⟩
      have hzones : zonesFor argv (files.deviceSize (argDevice argv)) = argNumZones argv :=
        if_neg hzero
      have hfit : u32 (cappedBytes argv (argNumZones argv)) ≤
          files.deviceSize (argDevice argv) := by
        rw [hsize, u64_of_lt (by omega)]
        exact hlow
      rw [← hzones] at P hfit
      obtain ⟨config, hok⟩ := exists_parseArgs P hfit
      obtain ⟨hdev, hbytes, -⟩ := parseArgs_sound hok
      obtain ⟨size', hsome, hfits⟩ := hall config hok
      rw [hdev, hopen] at hsome
      cases hsome
      rw [hbytes, hzones] at hfits
      omega
    · intro hover config hok
      obtain ⟨hdev, hbytes, P, hfit⟩ := parseArgs_sound hok
      refine ⟨size, by rw [hdev, hopen], ?_⟩
      rw [hsize] at hbytes P hfit
      rw [hbytes]
      by_cases hzero : argNumZones argv = 0
      · exact Nat.le_trans (default_zones_fit hzero _) hle
      · rw [zonesFor, if_neg hzero] at P hfit ⊢
        by_contra hbig
        exact hover ⟨hzero, P, Nat.le_trans hfit hle, Nat.not_le.mp hbig⟩

/-- What `ParseArgs` accepts fits on the device exactly unless the device cannot be opened, or its
size lies from the size of the zones cut to 32 bits up to this size. So there is a device on which
accepted zones do not fit exactly if zones of at least `2 ^ 32` bytes are asked for. -/
theorem device_large_enough_iff (argv : List String) :
    (∀ files, FitsIfAccepted files argv ↔ ¬Overlooked files argv) ∧
    ((∀ size, FitsIfAccepted (fun _ => some size) argv) ↔
      ¬(argNumZones argv ≠ 0 ∧ Plausible argv (argNumZones argv) ∧
        2 ^ 32 ≤ cappedBytes argv (argNumZones argv))) := by
  refine ⟨fun files => fitsIfAccepted_iff files argv, ?_⟩
  simp only [fitsIfAccepted_iff, Overlooked]
  constructor
  · rintro hall ⟨hzero, P, hbig⟩
    exact hall _ ⟨hzero, P, Nat.le_refl _, Nat.lt_of_lt_of_le u32_lt hbig⟩
  · rintro hsmall size ⟨hzero, P, hlow, hhigh⟩
    refine hsmall ⟨hzero, P, ?_⟩
    by_contra hlt
    rw [u32_of_lt (Nat.not_le.mp hlt)] at hlow
    omega

/-- A device that cannot be opened is accepted, and so is one of no bytes for 4096 zones of
1 MiB. -/
theorem small_device_accepted :
    (∃ config, parseArgs (Files.deviceSize fun _ => none) ["-b", "8", "/dev/nvme0n1"] =
        .ok config ∧ ¬config.FitsOn fun _ => none) ∧
      ∃ config, parseArgs (Files.deviceSize fun _ => some 0)
          ["-s", "1048576", "-b", "4096", "/dev/nvme0n1"] = .ok config ∧
        ¬config.FitsOn fun _ => some 0 := by
  constructor
  · refine ⟨{ device := "/dev/nvme0n1", sourceDir := "", numZones := 8, zoneSize := 16384
              numInodeEntryBlocks := 1, numInodeMapBlocks := 1, numZoneMapBlocks := 1
              numBlockAlignment := 1024 }, by decide, ?_⟩
    rintro ⟨size, hopen, -⟩
    cases hopen
  · refine ⟨{ device := "/dev/nvme0n1", sourceDir := "", numZones := 4096, zoneSize := 1048576
              numInodeEntryBlocks := 64, numInodeMapBlocks := 1, numZoneMapBlocks := 1
              numBlockAlignment := 1024 }, by decide, ?_⟩
    rintro ⟨size, hopen, hle⟩
    cases hopen
    cases hle

end Aufs
