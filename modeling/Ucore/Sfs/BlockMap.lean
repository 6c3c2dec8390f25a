import Ucore.Sfs.Image
import Ucore.Sfs.Volume

/-!
# Reading the block map of an image

`mksfs` and the kernel have a block map each. They agree on the direct slots and on the
indirect block; the double indirect block that `append_block` goes on with is none of the
kernel's, which panics there.
-/

namespace Ucore.Sfs

open Machine

/-! ## The kernel's reading -/

section Reading

variable {io : Nat → Int} {v : Volume} {node : BitVec 32} {index : Nat}

theorem sfsBmapGetNolock_direct (hcovered : v.Covered) (hindex : index < SFS_NDIRECT)
    (hino : (v.sin node).din.direct ⟨index, hindex⟩ = 0 ∨
      v.InUse ((v.sin node).din.direct ⟨index, hindex⟩)) :
    Ends never (sfsBmapGetNolock io node index false) v fun r t =>
      t = v ∧ r = .ok ((v.sin node).din.direct ⟨index, hindex⟩) := by
  rw [sfsBmapGetNolock, ends_bind, ends_get]
  change Ends _ (if h : index < SFS_NDIRECT then _ else _) v _
  rw [dif_pos hindex, if_neg (by simp)]
  exact bmapOut_spec hcovered hino

theorem sfsBmapGetNolock_indirect (hcovered : v.Covered) (hlow : SFS_NDIRECT ≤ index)
    (hindex : index - SFS_NDIRECT < SFS_BLK_NENTRY) (hent : v.Valid (v.sin node).din.indirect)
    (hio : io v.ios = 0)
    (hino : let ino := word (v.disk (v.sin node).din.indirect.toNat) (index - SFS_NDIRECT)
      ino = 0 ∨ v.InUse ino) :
    Ends never (sfsBmapGetNolock io node index false) v fun r t => t = { v with ios := v.ios + 1 } ∧
      r = .ok (word (v.disk (v.sin node).din.indirect.toNat) (index - SFS_NDIRECT)) := by
  have hoffset : 4 * (index - SFS_NDIRECT) + 4 ≤ SFS_BLKSIZE := by
    unfold SFS_BLK_NENTRY SFS_BLKSIZE at hindex
    unfold SFS_BLKSIZE
    omega
  rw [sfsBmapGetNolock, ends_bind, ends_get]
  change Ends _ (if h : index < SFS_NDIRECT then _ else _) v _
  rw [dif_neg (Nat.not_lt_of_le hlow), if_pos hindex, ends_bind, sfsBmapGetSubNolock, ends_bind,
    ends_check hindex, if_pos hent.ne_zero, ends_bind]
  apply (sfsRbuf_spec hent (by omega) hoffset).imp
  intro r t ht
  obtain ⟨rfl, hread⟩ := ht
  cases r with
  | error ret => exact absurd (hread.1.trans hio) hread.2
  | ok buf =>
      have hword : word buf 0 =
          word (v.disk (v.sin node).din.indirect.toNat) (index - SFS_NDIRECT) := by
        rw [hread.2]
        rfl
      simp only [or_true, if_true, ends_pure, ne_eq, not_true, if_false, hword]
      exact bmapOut_spec hcovered (hino.imp_right fun h => ⟨h.ne_zero, h.lt, h.used⟩)

/-- Past the indirect block the kernel panics. -/
theorem sfsBmapGetNolock_range (hindex : SFS_NDIRECT + SFS_BLK_NENTRY ≤ index)
    {E : Failed → Prop} {Q : Except Int (BitVec 32) → Volume → Prop} :
    Ends E (sfsBmapGetNolock io node index false) v Q ↔ E .sfsBmapGetNolock := by
  rw [sfsBmapGetNolock, ends_bind, ends_get]
  change Ends _ (if h : index < SFS_NDIRECT then _ else _) v _ ↔ _
  rw [dif_neg (by omega), if_neg (by omega), ends_throw]

/-- The kernel finds the numbers behind the indexes of all the blocks of an inode, and stops at none
of them. -/
def BlockMapAgrees (v : Volume) (node : BitVec 32) (numbers : List (BitVec 32)) : Prop :=
  ∀ i < (v.sin node).din.blocks.toNat, Ends never (sfsBmapGetNolock (fun _ => 0) node i false) v
    fun r _ => ∃ ino, r = .ok ino ∧ numbers[i]? = some ino

end Reading

namespace Mksfs

/-! ## The image as a volume -/

/-- The part of an inode that the kernel knows. -/
def Inode.din (inode : Inode) : DiskInode where
  size := inode.size
  type := inode.type
  nlinks := inode.nlinks
  blocks := inode.blocks
  direct := inode.direct
  indirect := inode.indirect

theorem ofBytes_inodeBlock (ci : CacheInode) :
    DiskInode.ofBytes (inodeBlock ci) = ci.inode.din := by
  apply DiskInode.ofBytes_of_words
  intro i hi
  rw [inodeBlock, word_splice _ _ (by omega), word_ofWords, Inode.words, DiskInode.words]
  by_cases hlast : i - 3 < SFS_NDIRECT
  · simp only [hlast, dif_pos]
    rfl
  · have hi : i = 15 := by
      unfold SFS_NDIRECT at hlast
      omega
    simp [hi, Inode.din]

section Volumes

variable {u : Tool} {img : Blocks} {dev : Device} {sfs : SfsFs} {sin : BitVec 32 → SfsInode}
  {n m : BitVec 32}

/-- A volume that was mounted from an image. -/
structure OfImage (u : Tool) (img : Blocks) (v : Volume) : Prop where
  covered : v.Covered
  blocks : v.super.blocks = u.ninos
  bits : v.freemap.bits = Finset.Ico u.nextIno.toNat u.ninos.toNat
  disk : v.disk = img

theorem Closed.ofImage (hu : Accounted u) (himg : Closed u img) (hdisk : dev.disk = img)
    (hmounted : Mounted dev sfs) : OfImage u img ((Volume.mounted sfs img sin).load n) := by
  have hsuper : dev.super = u.super := by rw [Device.super, hdisk, himg.super_eq]
  have hblocks : sfs.super.blocks = u.ninos := by
    rw [hmounted.super, hsuper]
    exact hu.blocks
  have hcover : u.ninos.toNat ≤ sfsFreemapBits u.super := by
    rw [hu.freemapBits_eq]
    unfold freemapBlocks SFS_BLKBITS SFS_BLKSIZE
    omega
  exact {
    covered := by
      show sfs.super.blocks.toNat ≤ sfs.freemap.nbits
      rw [hblocks, hmounted.nbits, hsuper]
      exact hcover
    blocks := hblocks
    bits := by
      show sfs.freemap.bits = _
      rw [hmounted.bits, hsuper, hdisk, himg.diskBits_eq hu]
    disk := rfl }

variable {v : Volume}

/-- What was handed out is a block of the volume, and not free. -/
theorem OfImage.inUse (hv : OfImage u img v) (hu : Accounted u) (hn : n ∈ u.handed) :
    v.InUse n where
  ne_zero := hu.ne_zero hn
  lt := by
    rw [hv.blocks]
    exact hu.handed_lt hn
  used := by
    rw [hv.bits, Finset.mem_Ico]
    exact fun h => Nat.not_lt_of_le h.1 ((hu.mem_handed n).mp hn).2

theorem OfImage.valid (hv : OfImage u img v) (hu : Accounted u) (hn : n ∈ u.handed) :
    v.Valid n where
  ne_zero := hu.ne_zero hn
  lt := (hv.inUse hu hn).lt
  small := by
    have hlt : n.toNat < u.ninos.toNat := hu.handed_lt hn
    have hsmall := hu.small
    unfold SFS_MAX_NBLKS at hsmall
    omega

theorem OfImage.ios (hv : OfImage u img v) (ios : Nat) : OfImage u img { v with ios } :=
  ⟨hv.covered, hv.blocks, hv.bits, hv.disk⟩

/-- The numbers of the blocks of a file were handed out. -/
theorem Accounted.appended_handed (hu : Accounted u) (hn : u.Listed n) {i : Nat}
    (hi : i < (u.inode n).appended.length) : (u.inode n).appended.getD i 0 ∈ u.handed :=
  hu.number_mem (.data n i) ⟨hn, hi⟩ fun heq => by cases heq

theorem OfImage.appended (hv : OfImage u img v) (hu : Accounted u) (hn : u.Listed n) (i : Nat) :
    (u.inode n).appended.getD i 0 = 0 ∨ v.InUse ((u.inode n).appended.getD i 0) := by
  by_cases hi : i < (u.inode n).appended.length
  · exact .inr (hv.inUse hu (hu.appended_handed hn hi))
  · exact .inl (List.getD_eq_default _ _ (Nat.le_of_not_lt hi))

/-- The kernel finds the number of every block up to the end of the indirect one. -/
theorem OfImage.bmap (hv : OfImage u img v) (hu : Built u) (himg : Closed u img) (hn : u.Listed n)
    (hdin : (v.sin n).din = (u.inode n).inode.din) {i : Nat} (hi : i < (u.inode n).appended.length)
    (hlow : i < SFS_NDIRECT + SFS_BLK_NENTRY) :
    Ends never (sfsBmapGetNolock (fun _ => 0) n i false) v fun r t => (∃ ios, t = { v with ios }) ∧
      r = .ok ((u.inode n).appended.getD i 0) := by
  have hfile := hu.filed.files n hn
  by_cases hdirect : i < SFS_NDIRECT
  · have hslot : (v.sin n).din.direct ⟨i, hdirect⟩ = (u.inode n).appended.getD i 0 := by
      rw [hdin]
      exact hfile.direct ⟨i, hdirect⟩
    have hino := hv.appended hu.accounted hn i
    rw [← hslot] at hino ⊢
    apply (sfsBmapGetNolock_direct hv.covered hdirect hino).imp
    exact fun r t ht => ⟨⟨v.ios, ht.1⟩, ht.2⟩
  · -- the indirect block was cached, and flushed as it was
    have hlong : SFS_L0_NBLKS < (u.inode n).nblks := by
      rw [hfile.nblks]
      unfold SFS_L0_NBLKS
      omega
    have hindirect : (v.sin n).din.indirect = (u.inode n).inode.indirect := by rw [hdin]; rfl
    have hcached : u.Cached (u.inode n).inode.indirect :=
      hu.filed.cached n _ hn ⟨hfile.indirect_ne_zero hlong, .inl rfl⟩
    have hhanded := hu.accounted.number_mem (.index _) hcached fun heq => by cases heq
    have hword : word (v.disk (v.sin n).din.indirect.toNat) (i - SFS_NDIRECT) =
        (u.inode n).appended.getD i 0 := by
      rw [hv.disk, hindirect, himg.blocks _ hcached, hfile.indirect hlong _ (by omega)]
      congr 1
      unfold SFS_L0_NBLKS
      omega
    have hino := hv.appended hu.accounted hn i
    rw [← hword] at hino ⊢
    have hent := hv.valid hu.accounted hhanded
    apply (sfsBmapGetNolock_indirect hv.covered (Nat.le_of_not_lt hdirect) (by omega)
      (hindirect ▸ hent) rfl hino).imp
    exact fun r t ht => ⟨⟨_, ht.1⟩, ht.2⟩

theorem Filed.blocks_eq (hu : Filed u) (hn : u.Listed n)
    (hdin : (v.sin n).din = (u.inode n).inode.din) :
    (v.sin n).din.blocks.toNat = (u.inode n).appended.length := by
  have hfile := hu.files n hn
  have hle := hfile.nblks_le
  rw [hdin]
  show (u.inode n).inode.blocks.toNat = _
  rw [hfile.blocks, hfile.nblks, BitVec.toNat_ofNat]
  rw [hfile.nblks] at hle
  exact Nat.mod_eq_of_lt (hle.trans_lt (by decide))

theorem OfImage.agrees_iff (hv : OfImage u img v) (hu : Built u) (himg : Closed u img)
    (hn : u.Listed n) (hdin : (v.sin n).din = (u.inode n).inode.din) :
    BlockMapAgrees v n (u.inode n).appended ↔
      (u.inode n).appended.length ≤ SFS_NDIRECT + SFS_BLK_NENTRY := by
  have hblocks := hu.filed.blocks_eq hn hdin
  constructor
  · intro hagrees
    by_contra hlong
    have hends := hagrees (SFS_NDIRECT + SFS_BLK_NENTRY) (by rw [hblocks]; omega)
    exact (sfsBmapGetNolock_range (Nat.le_refl _)).mp hends
  · intro hshort i hi
    rw [hblocks] at hi
    apply (hv.bmap hu himg hn hdin hi (by omega)).imp
    intro r t ht
    refine ⟨_, ht.2, ?_⟩
    rw [List.getElem?_eq_getElem hi, List.getD_eq_getElem _ _ hi]

theorem Closed.load_din (himg : Closed u img) (hn : u.Listed n) :
    (((Volume.mounted sfs img sin).load n).sin n).din = (u.inode n).inode.din := by
  have hself : ((Volume.mounted sfs img sin).load n).sin n =
      ⟨DiskInode.ofBytes (img n.toNat), false, 1⟩ :=
    Function.update_self _ _ _
  rw [hself, himg.inodes n hn, ofBytes_inodeBlock]

end Volumes

/-- Whatever the image size and the host directory: on the finished image the kernel finds
the blocks of an inode behind their indexes exactly if no double indirect block is used. -/
theorem blockMap_agrees (s : Tool) (imgSize : Nat) (info : Fin (SFS_MAX_INFO_LEN + 1) → Byte)
    (home : HostDir) :
    Ends Excused (createImg imgSize info home) s fun _ t => ∀ dev sfs sin, dev.disk = t.img →
      Mounted dev sfs → ∀ n, t.Listed n →
        (BlockMapAgrees ((Volume.mounted sfs t.img sin).load n) n (t.inode n).appended ↔
          (t.inode n).appended.length ≤ SFS_NDIRECT + SFS_BLK_NENTRY) := by
  apply (createImg_spec s imgSize info home).imp
  intro _ t ht dev sfs sin hdisk hmounted n hn
  obtain ⟨u, hinv, _, hrest, himg⟩ := ht
  have hn' : u.Listed n := by rwa [hrest] at hn
  have happended : (t.inode n).appended = (u.inode n).appended := by rw [hrest]
  rw [happended]
  exact (himg.ofImage hinv.built.accounted hdisk hmounted).agrees_iff hinv.built himg hn'
    (himg.load_din hn')

/-! ## A file that is too long for the kernel -/

/-- Nothing done yet. -/
def blankTool : Tool where
  super := ⟨0, 0, 0, fun _ => 0⟩
  ninos := 0
  nextIno := 0
  inodes _ := []
  inode _ := emptyInode 0 0
  blocks _ := []
  cache _ _ := 0
  entry _ := 0
  img _ _ := 0
  handed := []

def zeroChunk : Chunk := ⟨fun _ => 0, SFS_BLKSIZE, Nat.le_refl _⟩

/-- A host directory with one file, of 1037 full blocks. -/
def longFile : HostDir :=
  .entry ⟨[0x61], by decide⟩ (.file 7 (List.replicate 1037 (some zeroChunk))) .done

/-- The image of a host directory, before it is closed. -/
def openImg (imgSize : Nat) (info : Fin (SFS_MAX_INFO_LEN + 1) → Byte) (home : HostDir) :
    ToolM PUnit := do
  let root ← createSfs imgSize info
  openDir root root home

theorem createImg_eq (imgSize : Nat) (info : Fin (SFS_MAX_INFO_LEN + 1) → Byte) (home : HostDir) :
    createImg imgSize info home = openImg imgSize info home >>= fun _ => closeSfs :=
  (bind_assoc _ _ _).symm

/-- A cached inode of an open image, with its blocks, on the closed one. -/
theorem image_of_open {s : Tool} {imgSize : Nat} {info : Fin (SFS_MAX_INFO_LEN + 1) → Byte}
    {home : HostDir} {n : BitVec 32} {bucket nblks : Nat}
    (hopen : yields (openImg imgSize info home) s (fun _ u =>
      (u.inode n).nblks == nblks && (u.inodes bucket).contains n) = true) :
    Ends never (createImg imgSize info home) s fun _ t => ∃ u, Inv u ∧ t = { u with img := t.img } ∧
      Closed u t.img ∧ u.Listed n ∧ (u.inode n).appended.length = nblks := by
  have hboth := (Ends.of_yields hopen).and (openImg_spec s imgSize info home)
  rw [createImg_eq, ends_bind]
  apply hboth.imp
  intro _ u hu
  obtain ⟨hyields, hinv, _⟩ := hu
  rw [Bool.and_eq_true, beq_iff_eq, List.contains_iff_mem] at hyields
  have hlisted : u.Listed n := ⟨bucket, hyields.2⟩
  apply (closeSfs_spec hinv.built.accounted).imp
  intro _ t ht
  exact ⟨u, hinv, ht.1, ht.2, hlisted,
    ((hinv.built.filed.files n hlisted).nblks).symm.trans hyields.1⟩

/-- The image on a device that is just large enough is mounted. -/
theorem Closed.mounts {u : Tool} {img : Blocks} (hs : Accounted u) (himg : Closed u img) :
    ∃ dev sfs, dev.disk = img ∧ Mounted dev sfs := by
  obtain ⟨dev, hdev⟩ : ∃ dev : Device, dev = ⟨u.ninos.toNat, SFS_BLKSIZE, img⟩ := ⟨_, rfl⟩
  have hdisk : dev.disk = img := by rw [hdev]
  have hsuper : dev.super = u.super := by rw [Device.super, hdisk, himg.super_eq]
  have haccepted : ¬Refused calmAnswers dev := by
    intro hrefused
    rcases hrefused with h | h | h | ⟨_, h⟩ | ⟨_, h⟩
    · exact h (by rw [hdev])
    · exact h (hsuper ▸ hs.magic)
    · rw [hsuper, hs.blocks, hdev] at h
      exact Nat.lt_irrefl _ h
    · cases h
    · exact h rfl
  obtain ⟨_, _, _, sfs, _, hmounted⟩ :=
    (@sfsDoMount_mounts calmAnswers dev ∅ (himg.not_fatal hs hdisk) haccepted).ok
  exact ⟨dev, sfs, hdisk, hmounted⟩

/-- The kernel panics on a block of an image that has an inode with more blocks. -/
theorem not_agrees_of_open {s : Tool} {imgSize : Nat} {info : Fin (SFS_MAX_INFO_LEN + 1) → Byte}
    {home : HostDir} {n : BitVec 32} {bucket nblks : Nat}
    (hopen : yields (openImg imgSize info home) s (fun _ u =>
      (u.inode n).nblks == nblks && (u.inodes bucket).contains n) = true)
    (hlong : SFS_NDIRECT + SFS_BLK_NENTRY < nblks) :
    ¬ ∀ (s : Tool) (imgSize : Nat) (info : Fin (SFS_MAX_INFO_LEN + 1) → Byte) (home : HostDir),
      Ends Excused (createImg imgSize info home) s fun _ t => ∀ dev sfs sin, dev.disk = t.img →
        Mounted dev sfs → ∀ n, t.Listed n →
          BlockMapAgrees ((Volume.mounted sfs t.img sin).load n) n (t.inode n).appended := by
  intro hclaim
  have hends := (image_of_open hopen).and (hclaim s imgSize info home)
  obtain ⟨_, t, _, ⟨u, hinv, hrest, himg, hlisted, hlength⟩, hagrees⟩ := hends.ok
  have hs := hinv.built.accounted
  obtain ⟨dev, sfs, hdisk, hmounted⟩ := himg.mounts hs
  have hagree :=
    hagrees dev sfs (fun _ => ⟨DiskInode.ofBytes fun _ => 0, false, 0⟩) hdisk hmounted
    n (by rwa [hrest])
  have happended : (t.inode n).appended = (u.inode n).appended := by rw [hrest]
  rw [happended] at hagree
  have hle := ((himg.ofImage hs hdisk hmounted).agrees_iff hinv.built himg hlisted
    (himg.load_din hlisted)).mp hagree
  omega

/-- The file has inode 5. -/
theorem longFile_open : yields (openImg (4096 * 4096) (fun _ => 0) longFile) blankTool (fun _ u =>
    (u.inode 5).nblks == 1037 && (u.inodes (hash64 7)).contains 5) = true := by
  decide +kernel

/-- The kernel panics on the last block of the file. -/
theorem longFile_overruns : ¬ ∀ (s : Tool) (imgSize : Nat)
    (info : Fin (SFS_MAX_INFO_LEN + 1) → Byte) (home : HostDir),
    Ends Excused (createImg imgSize info home) s fun _ t => ∀ dev sfs sin,
      dev.disk = t.img → Mounted dev sfs → ∀ n, t.Listed n →
        BlockMapAgrees ((Volume.mounted sfs t.img sin).load n) n (t.inode n).appended :=
  not_agrees_of_open longFile_open (by decide)

end Mksfs

end Ucore.Sfs
