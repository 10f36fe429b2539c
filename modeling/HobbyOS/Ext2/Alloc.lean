import HobbyOS.Ext2

/-!
# What `allocInode` does to the bitmaps

Every write of `allocInode` leaves the descriptors of groups pointing to the same bitmaps and tables
(`Layout`), and clears no bit of a bitmap. One of them sets a bit which was clear, and the call holds
the inode from then on (`Takes`). This is so if no bit of a bitmap changes while the call is
suspended in reading it (`Spared`): otherwise the bit it sets may be set already.
-/

namespace HobbyOS

open Function Nat

/-! ## Bytes and bits -/

variable {buf src : Buf} {i o size : ℕ}

theorem fromOffset_copyTo_of_lt {j : ℕ} (hj : j < i) (ho : o < size) :
    fromOffset (copyTo buf (i * size) size src) (j * size) o = fromOffset buf (j * size) o := by
  have hle : (j + 1) * size ≤ i * size := Nat.mul_le_mul_right _ hj
  rw [succ_mul] at hle
  unfold fromOffset copyTo
  rw [if_neg (by omega)]

theorem fromOffset_copyTo_self (ho : o < size) :
    fromOffset (copyTo buf (i * size) size src) (i * size) o = src o := by
  unfold fromOffset copyTo
  rw [if_pos (by omega), Nat.add_sub_cancel_left]

/-- The bits of a block are those of its sectors. -/
theorem bitAt_fromOffset (buf : Buf) (k : ℕ) :
    bitAt (fromOffset buf (k / 8 / sectorSize * sectorSize)) (k % (8 * sectorSize)) =
      bitAt buf k := by
  unfold bitAt fromOffset sectorSize
  have h1 : k / 8 / 512 * 512 + k % (8 * 512) / 8 = k / 8 := by omega
  have h2 : k % (8 * 512) % 8 = k % 8 := by omega
  rw [h1, h2]

/-- A bit looks at its own byte only. -/
theorem bitAt_congr {buf' : Buf} {k : ℕ} (h : buf (k / 8) = buf' (k / 8)) :
    bitAt buf k = bitAt buf' k := by
  unfold bitAt
  rw [h]

theorem bitAt_setBitAt (buf : Buf) (i k : ℕ) :
    bitAt (setBitAt buf i) k = (bitAt buf k || decide (k = i)) := by
  unfold bitAt setBitAt
  by_cases hb : k / 8 = i / 8
  · have hlt : (buf (i / 8)).toNat ||| 1 <<< (i % 8) < 2 ^ 8 := by
      refine or_lt_two_pow (UInt8.toNat_lt _) ?_
      rw [one_shiftLeft]
      exact Nat.pow_lt_pow_right (by norm_num) (mod_lt _ (by norm_num))
    rw [hb, update_self, UInt8.toNat_ofNat', mod_eq_of_lt hlt, testBit_or,
      one_shiftLeft, testBit_two_pow]
    congr 1
    rw [decide_eq_decide]
    omega
  · have hk : k ≠ i := fun he => hb (by rw [he])
    rw [update_of_ne hb, decide_eq_false hk, Bool.or_false]

theorem sector_write (s : Sectors) (x : ℕ) (data : Buf) :
    (s.write x data).sector = update s.sector x data := rfl

namespace Ext2

variable {fs : Ext2} {s s' s1 s2 s3 : Sectors} {x g i block j sector n N : ℕ}
  {data desc buf : Buf} {h : Option (ℕ × ℕ)} {post : Option (ℕ × ℕ) → Sectors → Unit → Prop}

/-- The numbers of the sectors of a block have 32 bits. -/
def Fits (fs : Ext2) (block : ℕ) : Prop :=
  block * fs.sectorsPerBlock + fs.sectorsPerBlock ≤ 2 ^ 32

instance (fs : Ext2) (block : ℕ) : Decidable (fs.Fits block) := inferInstanceAs (Decidable (_ ≤ _))

/-- The bitmaps and tables of inodes, the descriptors and the superblock do not overlap, and the
    numbers of sectors and inodes have 32 bits. -/
structure Wellformed (fs : Ext2) : Prop where
  sectors : 0 < fs.sectorsPerBlock
  inodes : fs.inodesPerGroup ≤ 8 * fs.blockSize
  bitmaps : ∀ g < fs.groupCount, ∀ g' < fs.groupCount, fs.inodeBitmap g = fs.inodeBitmap g' → g = g'
  descs : ∀ g < fs.groupCount, ∀ g' < fs.groupCount, fs.descBlock g ≠ fs.inodeBitmap g'
  super : ∀ x, x = 2 ∨ x = 3 → ∀ g < fs.groupCount,
    x / fs.sectorsPerBlock ≠ fs.inodeBitmap g ∧ x / fs.sectorsPerBlock ≠ fs.descBlock g
  tables : ∀ g < fs.groupCount, ∀ i < fs.inodesPerGroup, ∀ g' < fs.groupCount,
    fs.inodeTable g + i / (fs.blockSize / fs.inodeSize) ≠ fs.inodeBitmap g' ∧
    fs.inodeTable g + i / (fs.blockSize / fs.inodeSize) ≠ fs.descBlock g'
  fits : ∀ g < fs.groupCount, fs.Fits (fs.descBlock g) ∧ fs.Fits (fs.inodeBitmap g) ∧
    ∀ i < fs.inodesPerGroup, fs.Fits (fs.inodeTable g + i / (fs.blockSize / fs.inodeSize))
  numbers : fs.inodesPerGroup * fs.groupCount < 2 ^ 32

/-- The descriptors of the groups point to the bitmaps and the tables. -/
def Layout (fs : Ext2) (s : Sectors) : Prop := ∀ x, fs.SectorOk x (s.sector x)

/-- No inode becomes free. -/
def Grows (fs : Ext2) (s s' : Sectors) : Prop :=
  ∀ g < fs.groupCount, ∀ i < fs.inodesPerGroup, fs.inodeBit s g i = true → fs.inodeBit s' g i = true

/-- If a sector is in the bitmap of a group, no bit of this bitmap changes. -/
def Spared (fs : Ext2) (x : ℕ) (s s' : Sectors) : Prop :=
  ∀ g < fs.groupCount, x / fs.sectorsPerBlock = fs.inodeBitmap g →
    ∀ i < fs.inodesPerGroup, fs.inodeBit s' g i = fs.inodeBit s g i

instance (fs : Ext2) (x : ℕ) (s s' : Sectors) : Decidable (fs.Spared x s s') :=
  inferInstanceAs (Decidable (∀ g < fs.groupCount, _ → ∀ i < fs.inodesPerGroup, _))

/-- What others do while a call is suspended on a sector. -/
def Rely (fs : Ext2) (x : ℕ) (s s' : Sectors) : Prop :=
  (fs.Layout s → fs.Layout s') ∧ fs.Grows s s' ∧ fs.Spared x s s'

/-- What a call does, and what it holds then: it takes an inode which is free. -/
def Takes (fs : Ext2) (h : Option (ℕ × ℕ)) (s : Sectors) (h' : Option (ℕ × ℕ)) (s' : Sectors) : Prop :=
  (fs.Layout s → fs.Layout s') ∧ fs.Grows s s' ∧
    (h' = h ∨ (h = none ∧ ∃ g i, g < fs.groupCount ∧ i < fs.inodesPerGroup ∧ h' = some (g, i) ∧
      fs.inodeBit s g i = false ∧ fs.inodeBit s' g i = true))

/-- What a call returns: the inode it holds, or `0`. -/
def Returns (fs : Ext2) (h : Option (ℕ × ℕ)) (_ : Sectors) (num : ℕ) : Prop :=
  (h = none ∧ num = 0) ∨ ∃ g i, g < fs.groupCount ∧ i < fs.inodesPerGroup ∧ h = some (g, i) ∧
    num = fs.inodeNum g i

theorem Grows.refl (fs : Ext2) (s : Sectors) : fs.Grows s s := fun _ _ _ _ hb => hb

theorem Grows.trans (h1 : fs.Grows s1 s2) (h2 : fs.Grows s2 s3) :
    fs.Grows s1 s3 := fun g hg i hi hb => h2 g hg i hi (h1 g hg i hi hb)

theorem Rely.refl (fs : Ext2) (x : ℕ) (s : Sectors) : fs.Rely x s s :=
  ⟨fun hl => hl, Grows.refl fs s, fun _ _ _ _ _ => rfl⟩

theorem Rely.trans (h1 : fs.Rely x s1 s2) (h2 : fs.Rely x s2 s3) : fs.Rely x s1 s3 :=
  ⟨fun hl => h2.1 (h1.1 hl), h1.2.1.trans h2.2.1,
    fun g hg hx i hi => (h2.2.2 g hg hx i hi).trans (h1.2.2 g hg hx i hi)⟩

theorem Takes.refl (fs : Ext2) (h : Option (ℕ × ℕ)) (s : Sectors) : fs.Takes h s h s :=
  ⟨fun hl => hl, Grows.refl fs s, .inl rfl⟩

theorem Takes.trans {h1 h2 h3 : Option (ℕ × ℕ)} (t1 : fs.Takes h1 s1 h2 s2)
    (t2 : fs.Takes h2 s2 h3 s3) : fs.Takes h1 s1 h3 s3 := by
  obtain ⟨hl1, hg1, hh1⟩ := t1
  obtain ⟨hl2, hg2, hh2⟩ := t2
  refine ⟨fun hl => hl2 (hl1 hl), hg1.trans hg2, ?_⟩
  obtain rfl | ⟨rfl, g, i, hg, hi, rfl, hc, hs⟩ := hh1
  · obtain rfl | ⟨rfl, g, i, hg, hi, rfl, hc, hs⟩ := hh2
    · exact .inl rfl
    · refine .inr ⟨rfl, g, i, hg, hi, rfl, ?_, hs⟩
      exact Bool.eq_false_iff.2 fun hb => by simp [hg1 g hg i hi hb] at hc
  · obtain rfl | ⟨hn, -⟩ := hh2
    · exact .inr ⟨rfl, g, i, hg, hi, rfl, hc, hg2 g hg i hi hs⟩
    · cases hn

/-! ## Writes -/

theorem Layout.write (hl : fs.Layout s) (hok : fs.SectorOk x data) : fs.Layout
    (s.write x data) := by
  intro y
  by_cases hy : y = x
  · subst hy
    rwa [sector_write, update_self]
  · rw [sector_write, update_of_ne hy]
    exact hl y

variable (hw : fs.Wellformed)

include hw

theorem Wellformed.index_lt (hi : i < fs.inodesPerGroup) :
    i / 8 / sectorSize < fs.sectorsPerBlock := by
  have hle : fs.inodesPerGroup ≤ 8 * (fs.sectorsPerBlock * 512) := hw.inodes
  unfold sectorSize
  omega

/-- The block of a sector. -/
theorem Wellformed.block_eq (hj : j < fs.sectorsPerBlock) :
    (block * fs.sectorsPerBlock + j) / fs.sectorsPerBlock = block := by
  rw [Nat.mul_comm, mul_add_div hw.sectors, div_eq_of_lt hj, Nat.add_zero]

/-- A write outside of a bitmap leaves its bits. -/
theorem Wellformed.inodeBit_write (hi : i < fs.inodesPerGroup)
    (hx : x / fs.sectorsPerBlock ≠ fs.inodeBitmap g) :
    fs.inodeBit (s.write x data) g i = fs.inodeBit s g i := by
  have hne : fs.inodeBitmap g * fs.sectorsPerBlock + i / 8 / sectorSize ≠ x := by
    rintro rfl
    exact hx (hw.block_eq (hw.index_lt hi))
  unfold inodeBit
  rw [sector_write, update_of_ne hne]

/-- A write outside of the bitmaps takes no inode. -/
theorem Wellformed.takes_write (hx : ∀ g < fs.groupCount, x / fs.sectorsPerBlock ≠ fs.inodeBitmap g)
    (hok : fs.SectorOk x data) : fs.Takes h s h (s.write x data) := by
  refine ⟨fun hl => hl.write hok, fun g hg i hi hb => ?_, .inl rfl⟩
  rwa [hw.inodeBit_write hi (hx g hg)]

theorem Wellformed.descPerBlock_pos : 0 < fs.descPerBlock := by
  have hpos := hw.sectors
  have hs : sectorSize = 512 := rfl
  have hd : descSize = 32 := rfl
  unfold descPerBlock blockSize
  exact Nat.div_pos (by rw [hs, hd]; omega) (by omega)

/-- A descriptor is inside of its block, and does not cross the end of a sector. -/
theorem Wellformed.descOffset_lt (g : ℕ) : fs.descOffset g / sectorSize < fs.sectorsPerBlock ∧
      fs.descOffset g % sectorSize + descSize ≤ sectorSize := by
  have hlt := mod_lt g hw.descPerBlock_pos
  have hdpb : fs.descPerBlock = fs.sectorsPerBlock * 512 / 32 := rfl
  have ho : fs.descOffset g = g % fs.descPerBlock * 32 := rfl
  unfold sectorSize descSize
  omega

theorem Wellformed.descSector_div (g : ℕ) : fs.descSector g / fs.sectorsPerBlock = fs.descBlock g :=
  hw.block_eq (hw.descOffset_lt g).1

/-- A sector without descriptors may hold anything. -/
theorem Wellformed.sectorOk_of_ne
    (hx : ∀ g < fs.groupCount, x / fs.sectorsPerBlock ≠ fs.descBlock g) (data : Buf) :
    fs.SectorOk x data := by
  rintro g hg rfl
  exact absurd (hw.descSector_div g) (hx g hg)

omit hw in
/-- The pointers are in the bytes of a descriptor. -/
theorem desc_congr {desc' : Buf} {n t : ℕ} (h : ∀ o < descSize, desc' o = desc o)
    (hd : bgInodeBitmap desc = n ∧ bgInodeTable desc = t) :
    bgInodeBitmap desc' = n ∧ bgInodeTable desc' = t := by
  have hsize : descSize = 32 := rfl
  exact ⟨(loadLE_congr fun o _ _ => h o (by omega)).trans hd.1,
    (loadLE_congr fun o _ _ => h o (by omega)).trans hd.2⟩

/-- Only the bytes of the sector matter. -/
theorem Wellformed.sectorOk_congr {data' : Buf} (hok : fs.SectorOk x data)
    (heq : ∀ o < sectorSize, data' o = data o) : fs.SectorOk x data' := by
  intro g hg hx
  have hoff := (hw.descOffset_lt g).2
  exact desc_congr (fun o ho => heq _ (by omega)) (hok g hg hx)

theorem takes_writeSuperBlock : fs.Takes h s h (writeSuperBlock s) := by
  have h2 (g : ℕ) (hg : g < fs.groupCount) := hw.super 2 (.inl rfl) g hg
  have h3 (g : ℕ) (hg : g < fs.groupCount) := hw.super 3 (.inr rfl) g hg
  have hsb (sb : Buf) : fs.Takes h s h { s with sb := sb } :=
    ⟨fun hl => hl, fun _ _ _ _ hb => hb, .inl rfl⟩
  exact ((hsb _).trans (hw.takes_write (fun g hg => (h2 g hg).1)
    (hw.sectorOk_of_ne (fun g hg => (h2 g hg).2) _))).trans (hw.takes_write (fun g hg => (h3 g hg).1)
    (hw.sectorOk_of_ne (fun g hg => (h3 g hg).2) _))

omit hw

/-! ## Blocks -/

variable {α : Type}

/-- A call satisfies its specification. -/
abbrev Ok (fs : Ext2) (post : Option (ℕ × ℕ) → Sectors → α → Prop) (p : DiskProg α)
    (h : Option (ℕ × ℕ)) (s : Sectors) : Prop :=
  p.Sat diskDevice fs.Rely fs.Takes post h s

/-- The rule for the loop of `readBlock`, with what holds after `i` sectors. -/
theorem readSectors_ok {post : Option (ℕ × ℕ) → Sectors → Buf → Prop} {J : ℕ → Buf → Sectors → Prop}
    (hJ : ∀ i buf s s', i < N → J i buf s → fs.Rely (sector + i) s s' →
      J (i + 1) (copyTo buf (i * sectorSize) sectorSize (s'.sector (sector + i))) s')
    (hpost : ∀ buf s, J N buf s → post h s buf) (hlt : sector + N ≤ 2 ^ 32) (hn : i + n = N)
    (hs : J i buf s) :
    fs.Ok post (readSectors sector n i buf) h s := by
  induction n generalizing i buf s with
  | zero =>
    obtain rfl : i = N := by omega
    exact hpost buf s hs
  | succ n ih =>
    rw [readSectors, mod_eq_of_lt (by omega)]
    intro s' hR
    exact ih (by omega) (hJ i buf s s' (by omega) hs hR)

/-- The rule for the loop of `writeBlock`, with what holds after `i` sectors. -/
theorem writeSectors_ok {K : ℕ → Option (ℕ × ℕ) → Sectors → Prop} (hK : ∀ i h s, i < N → K i h s →
      ∃ h', fs.Takes h s h' (s.write (sector + i) (fromOffset buf (i * sectorSize))) ∧
        K (i + 1) h' (s.write (sector + i) (fromOffset buf (i * sectorSize))))
    (hpost : ∀ h s, K N h s → post h s ()) (hlt : sector + N ≤ 2 ^ 32) (hn : i + n = N)
    (hs : K i h s) :
    fs.Ok post (writeSectors sector buf n i) h s := by
  induction n generalizing i h s with
  | zero =>
    obtain rfl : i = N := by omega
    exact hpost h s hs
  | succ n ih =>
    obtain ⟨h', hT, hk⟩ := hK i h s (by omega) hs
    rw [writeSectors, mod_eq_of_lt (by omega)]
    exact ⟨h', hT, ih (by omega) hk⟩

/-- Every sector of a block of descriptors holds what it is to hold. -/
def BlockOk (fs : Ext2) (block : ℕ) (buf : Buf) : Prop := ∀ j < fs.sectorsPerBlock,
  fs.SectorOk (block * fs.sectorsPerBlock + j) (fromOffset buf (j * sectorSize))

include hw

/-- The first sector of a block. -/
theorem Wellformed.sector_eq (hf : fs.Fits block) :
    block * fs.sectorsPerBlock % 2 ^ 32 = block * fs.sectorsPerBlock := by
  have hpos := hw.sectors
  unfold Fits at hf
  exact mod_eq_of_lt (by omega)

/-- A block outside of the bitmaps is written. -/
theorem Wellformed.writeBlock_ok (hf : fs.Fits block) (hb : ∀ g < fs.groupCount, block ≠ fs.inodeBitmap g)
    (hok : fs.BlockOk block buf) (hl : fs.Layout s) (hpost : ∀ s, fs.Layout s → post h s ()) :
    fs.Ok post (fs.writeBlock block buf) h s := by
  rw [writeBlock, hw.sector_eq hf]
  refine writeSectors_ok (K := fun _ h' s => h' = h ∧ fs.Layout s) (fun i h' s hi hk => ?_)
    (fun h' s hk => hk.1 ▸ hpost s hk.2) hf (Nat.zero_add _) ⟨rfl, hl⟩
  refine ⟨h', hw.takes_write (fun g hg => ?_) (hok i hi), hk.1, hk.2.write (hok i hi)⟩
  rw [hw.block_eq hi]
  exact hb g hg

theorem Wellformed.readDescs_ok {post : Option (ℕ × ℕ) → Sectors → Buf → Prop}
    (hf : fs.Fits block) (hl : fs.Layout s)
    (hpost : ∀ buf s, fs.Layout s → fs.BlockOk block buf → post h s buf) :
    fs.Ok post (fs.readBlock block) h s := by
  rw [readBlock, hw.sector_eq hf]
  refine readSectors_ok (J := fun i buf s => fs.Layout s ∧ ∀ j < i,
      fs.SectorOk (block * fs.sectorsPerBlock + j) (fromOffset buf (j * sectorSize)))
    (fun i buf s s' hi hj hR => ⟨hR.1 hj.1, fun j hji => ?_⟩)
    (fun buf s hj => hpost buf s hj.1 hj.2) hf (Nat.zero_add _) ⟨hl, nofun⟩
  obtain hlt | rfl := Nat.lt_succ_iff_lt_or_eq.1 hji
  · exact hw.sectorOk_congr (hj.2 j hlt) fun o ho => fromOffset_copyTo_of_lt hlt ho
  · exact hw.sectorOk_congr (hR.1 hj.1 _) fun o ho => fromOffset_copyTo_self ho

/-- The descriptor of a group in a block of descriptors. -/
theorem Wellformed.fromOffset_desc (hg : g < fs.groupCount)
    (hok : fs.BlockOk (fs.descBlock g) buf) :
    bgInodeBitmap (fromOffset buf (fs.descOffset g)) = fs.inodeBitmap g ∧
      bgInodeTable (fromOffset buf (fs.descOffset g)) = fs.inodeTable g := by
  have h := hok _ (hw.descOffset_lt g).1 g hg rfl
  have heq : fromOffset (fromOffset buf (fs.descOffset g / sectorSize * sectorSize))
      (fs.descOffset g % sectorSize) = fromOffset buf (fs.descOffset g) := by
    funext o
    unfold fromOffset
    rw [← Nat.add_assoc, div_add_mod']
  rwa [heq] at h

theorem Wellformed.readGroupDesc_ok {post : Option (ℕ × ℕ) → Sectors → Buf → Prop}
    (hg : g < fs.groupCount) (hl : fs.Layout s)
    (hpost : ∀ desc s, fs.Layout s → bgInodeBitmap desc = fs.inodeBitmap g →
      bgInodeTable desc = fs.inodeTable g → post h s desc) :
    fs.Ok post (fs.readGroupDesc g) h s := by
  refine Prog.Sat.bind (hw.readDescs_ok (hw.fits g hg).1 hl fun buf s hl hok => ?_)
  obtain ⟨hb, ht⟩ := hw.fromOffset_desc hg hok
  exact hpost _ s hl hb ht

omit hw in
/-- The descriptors of two groups do not overlap. -/
theorem descOffset_ne {g' : ℕ} (hne : g' ≠ g) (hb : fs.descBlock g' = fs.descBlock g) :
    fs.descOffset g' + descSize ≤ fs.descOffset g ∨
      fs.descOffset g + descSize ≤ fs.descOffset g' := by
  have hd : descSize = 32 := rfl
  have ho : fs.descOffset g = g % fs.descPerBlock * 32 := rfl
  have ho' : fs.descOffset g' = g' % fs.descPerBlock * 32 := rfl
  have hdiv : g' / fs.descPerBlock = g / fs.descPerBlock := by
    unfold descBlock at hb
    omega
  have hmod : g' % fs.descPerBlock ≠ g % fs.descPerBlock := fun he => hne (by
    rw [← div_add_mod g' fs.descPerBlock, hdiv, he, div_add_mod])
  omega

/-- A descriptor with the same pointers is put into a block. -/
theorem Wellformed.blockOk_copyTo (hok : fs.BlockOk (fs.descBlock g) buf)
    (hb : bgInodeBitmap desc = fs.inodeBitmap g) (ht : bgInodeTable desc = fs.inodeTable g) :
    fs.BlockOk (fs.descBlock g) (copyTo buf (fs.descOffset g) descSize desc) := by
  intro j hj g' hg' hx
  have hblock : fs.descBlock g' = fs.descBlock g := by
    rw [← hw.descSector_div g', hx, hw.block_eq hj]
  have hj' : fs.descOffset g' / sectorSize = j := by
    have hx : fs.descBlock g' * fs.sectorsPerBlock + fs.descOffset g' / sectorSize =
      fs.descBlock g * fs.sectorsPerBlock + j := hx
    rw [hblock] at hx
    omega
  have hoff (o : ℕ) : j * sectorSize + (fs.descOffset g' % sectorSize + o) =
      fs.descOffset g' + o := by
    rw [← hj', ← Nat.add_assoc, div_add_mod']
  by_cases he : g' = g
  · subst he
    refine desc_congr (fun o ho => ?_) ⟨hb, ht⟩
    unfold fromOffset copyTo
    rw [hoff, if_pos (by omega), Nat.add_sub_cancel_left]
  · have hdis := descOffset_ne he hblock
    refine desc_congr (fun o ho => ?_) (hok j hj g' hg' hx)
    unfold fromOffset copyTo
    rw [hoff, if_neg (by omega)]

theorem Wellformed.writeGroupDesc_ok (hg : g < fs.groupCount)
    (hb : bgInodeBitmap desc = fs.inodeBitmap g) (ht : bgInodeTable desc = fs.inodeTable g)
    (hl : fs.Layout s) (hpost : ∀ s, fs.Layout s → post h s ()) :
    fs.Ok post (fs.writeGroupDesc g desc) h s := by
  have hf := (hw.fits g hg).1
  refine Prog.Sat.bind (hw.readDescs_ok hf hl fun buf s hl hok => ?_)
  exact hw.writeBlock_ok hf (hw.descs g hg) (hw.blockOk_copyTo hok hb ht) hl hpost

/-- The number of an inode does not wrap around. -/
theorem Wellformed.inodeNum_eq (hg : g < fs.groupCount) (hi : i < fs.inodesPerGroup) :
    fs.inodeNum g i = fs.inodesPerGroup * g + i + 1 := by
  have hle : fs.inodesPerGroup * (g + 1) ≤ fs.inodesPerGroup * fs.groupCount :=
    Nat.mul_le_mul_left _ hg
  rw [Nat.mul_add, Nat.mul_one] at hle
  exact mod_eq_of_lt (by have := hw.numbers; omega)

theorem Wellformed.writeRawInode_ok {raw : Buf} (hg : g < fs.groupCount)
    (hi : i < fs.inodesPerGroup) (hl : fs.Layout s) (hpost : ∀ s, fs.Layout s → post h s ()) :
    fs.Ok post (fs.writeRawInode (fs.inodeNum g i) raw) h s := by
  have hlt : fs.inodeNum g i < 2 ^ 32 := mod_lt _ (Nat.two_pow_pos 32)
  have hnum : (fs.inodeNum g i + (2 ^ 32 - 1)) % 2 ^ 32 = fs.inodesPerGroup * g + i := by
    rw [hw.inodeNum_eq hg hi] at hlt ⊢
    omega
  unfold writeRawInode
  rw [hnum, mul_add_div (by omega), div_eq_of_lt hi, Nat.add_zero, mul_add_mod, mod_eq_of_lt hi]
  refine Prog.Sat.bind (hw.readGroupDesc_ok hg hl fun desc s hl _ ht => ?_)
  rw [ht]
  have htab := hw.tables g hg i hi
  have hf := (hw.fits g hg).2.2 i hi
  refine Prog.Sat.bind (hw.readDescs_ok hf hl fun buf s hl _ => ?_)
  refine hw.writeBlock_ok hf (fun g' hg' => (htab g' hg').1) (fun j hj => ?_) hl hpost
  refine hw.sectorOk_of_ne (fun g' hg' => ?_) _
  rw [hw.block_eq hj]
  exact (htab g' hg').2

/-! ## The bitmap -/

/-- The bitmap is read as it is: no bit changes in the meantime. -/
theorem Wellformed.readBitmap_ok {post : Option (ℕ × ℕ) → Sectors → Buf → Prop}
    (hg : g < fs.groupCount) (hl : fs.Layout s)
    (hpost : ∀ buf s, fs.Layout s →
      (∀ k < fs.inodesPerGroup, bitAt buf k = fs.inodeBit s g k) → post h s buf) :
    fs.Ok post (fs.readBlock (fs.inodeBitmap g)) h s := by
  have hf := (hw.fits g hg).2.1
  rw [readBlock, hw.sector_eq hf]
  refine readSectors_ok (J := fun i buf s => fs.Layout s ∧ ∀ k < fs.inodesPerGroup,
      k / 8 / sectorSize < i → bitAt buf k = fs.inodeBit s g k)
    (fun i buf s s' hi hj hR => ⟨hR.1 hj.1, fun k hk hki => ?_⟩)
    (fun buf s hj => hpost buf s hj.1 fun k hk => hj.2 k hk (hw.index_lt hk)) hf (Nat.zero_add _)
    ⟨hl, fun _ _ hk => absurd hk (Nat.not_lt_zero _)⟩
  have hbyte : k % (8 * sectorSize) / 8 < sectorSize := by
    unfold sectorSize
    omega
  rw [← bitAt_fromOffset]
  obtain hlt | rfl := Nat.lt_succ_iff_lt_or_eq.1 hki
  · -- what was read before has not changed
    rw [hR.2.2 g hg (hw.block_eq hi) k hk, ← hj.2 k hk hlt, ← bitAt_fromOffset buf k]
    exact bitAt_congr (fromOffset_copyTo_of_lt hlt hbyte)
  · exact bitAt_congr (fromOffset_copyTo_self hbyte)

omit hw in
/-- A sector of the bitmap is written. -/
theorem inodeBit_writeBitmap (j k : ℕ) :
    fs.inodeBit (s.write (fs.inodeBitmap g * fs.sectorsPerBlock + j)
      (fromOffset buf (j * sectorSize))) g k =
      if k / 8 / sectorSize = j then bitAt buf k else fs.inodeBit s g k := by
  unfold inodeBit
  rw [sector_write]
  by_cases hj : k / 8 / sectorSize = j
  · subst hj
    rw [if_pos rfl, update_self, bitAt_fromOffset]
  · rw [if_neg hj, update_of_ne (by omega)]

/-- What holds while the bitmap is written, after `j` sectors: the bit is set in the sector it
    is in. -/
structure Setting (fs : Ext2) (g i0 : ℕ) (buf : Buf) (j : ℕ) (h : Option (ℕ × ℕ)) (s : Sectors) :
    Prop where
  layout : fs.Layout s
  same : ∀ k < fs.inodesPerGroup, k ≠ i0 → fs.inodeBit s g k = bitAt buf k
  before : j ≤ i0 / 8 / sectorSize → h = none ∧ fs.inodeBit s g i0 = false
  after : i0 / 8 / sectorSize < j → h = some (g, i0)

theorem Wellformed.setting_step {i0 : ℕ} (hg : g < fs.groupCount)
    (hi : i0 < fs.inodesPerGroup) (hj : j < fs.sectorsPerBlock) (hk : fs.Setting g i0 buf j h s)
    (hs' : s.write (fs.inodeBitmap g * fs.sectorsPerBlock + j)
      (fromOffset (setBitAt buf i0) (j * sectorSize)) = s') :
    ∃ h', fs.Takes h s h' s' ∧ fs.Setting g i0 buf (j + 1) h' s' := by
  have hblock : (fs.inodeBitmap g * fs.sectorsPerBlock + j) / fs.sectorsPerBlock =
    fs.inodeBitmap g := hw.block_eq hj
  have hbit (k : ℕ) : fs.inodeBit s' g k =
      if k / 8 / sectorSize = j then bitAt buf k || decide (k = i0) else fs.inodeBit s g k := by
    rw [← hs', inodeBit_writeBitmap, bitAt_setBitAt]
  have hlayout : fs.Layout s' := by
    rw [← hs']
    refine hk.layout.write (hw.sectorOk_of_ne (fun g' hg' => ?_) _)
    rw [hblock]
    exact (hw.descs g' hg' g hg).symm
  have hsame (k : ℕ) (hk' : k < fs.inodesPerGroup) (hne : k ≠ i0) :
      fs.inodeBit s' g k = fs.inodeBit s g k := by
    rw [hbit, decide_eq_false hne, Bool.or_false, hk.same k hk' hne, ite_self]
  have hgrow : fs.Grows s s' := by
    intro g' hg' k hk' hb
    by_cases hgg : g' = g
    · subst hgg
      by_cases hne : k = i0
      · subst hne
        rw [hbit, decide_eq_true rfl, Bool.or_true]
        split
        · rfl
        · exact hb
      · rwa [hsame k hk' hne]
    · rwa [← hs', hw.inodeBit_write hk']
      rw [hblock]
      exact fun he => hgg (hw.bitmaps g' hg' g hg he.symm)
  by_cases hin : i0 / 8 / sectorSize = j
  · -- this is the sector with the bit
    obtain ⟨rfl, hclear⟩ := hk.before hin.ge
    have hset : fs.inodeBit s' g i0 = true := by
      rw [hbit, if_pos hin, decide_eq_true rfl, Bool.or_true]
    refine ⟨some (g, i0), ⟨fun _ => hlayout, hgrow, .inr ⟨rfl, g, i0, hg, hi, rfl, hclear, hset⟩⟩,
      hlayout, fun k hk' hne => (hsame k hk' hne).trans (hk.same k hk' hne),
      fun hle => absurd hle (by omega), fun _ => rfl⟩
  · refine ⟨h, ⟨fun _ => hlayout, hgrow, .inl rfl⟩, hlayout,
      fun k hk' hne => (hsame k hk' hne).trans (hk.same k hk' hne), fun hle => ?_,
      fun hlt => hk.after (by omega)⟩
    obtain ⟨hn, hclear⟩ := hk.before (by omega)
    refine ⟨hn, ?_⟩
    rwa [hbit, if_neg hin]

/-- After the bitmap is written, the call holds the inode. -/
theorem Wellformed.writeBitmap_ok (hg : g < fs.groupCount) (hi : i < fs.inodesPerGroup)
    (hl : fs.Layout s) (hbuf : ∀ k < fs.inodesPerGroup, bitAt buf k = fs.inodeBit s g k)
    (hclear : bitAt buf i = false) (hpost : ∀ s, fs.Layout s → post (some (g, i)) s ()) :
    fs.Ok post (fs.writeBlock (fs.inodeBitmap g) (setBitAt buf i)) none s := by
  have hf := (hw.fits g hg).2.1
  rw [writeBlock, hw.sector_eq hf]
  refine writeSectors_ok (K := fs.Setting g i buf) (fun j h s hj hk => hw.setting_step hg hi hj hk rfl)
    (fun h s hk => hk.after (hw.index_lt hi) ▸ hpost s hk.layout) hf (Nat.zero_add _)
    ⟨hl, fun k hk _ => (hbuf k hk).symm, fun _ => ⟨rfl, (hbuf i hi).symm.trans hclear⟩,
      fun hlt => absurd hlt (Nat.not_lt_zero _)⟩

/-! ## The call -/

theorem Wellformed.takeInode_ok {bitmap : Buf} (hg : g < fs.groupCount)
    (hi : i < fs.inodesPerGroup) (hl : fs.Layout s) (hb : bgInodeBitmap desc = fs.inodeBitmap g)
    (ht : bgInodeTable desc = fs.inodeTable g)
    (hbuf : ∀ k < fs.inodesPerGroup, bitAt bitmap k = fs.inodeBit s g k)
    (hclear : bitAt bitmap i = false) : fs.Ok fs.Returns (fs.takeInode g desc bitmap i) none s := by
  unfold takeInode
  rw [hb]
  refine Prog.Sat.bind (hw.writeBitmap_ok hg hi hl hbuf hclear fun s hl => ?_)
  have hb' : bgInodeBitmap (storeLE desc 14 2 (bgFreeInodesCount desc - 1)) = fs.inodeBitmap g :=
    (loadLE_storeLE_of_disjoint (.inl (by norm_num))).trans hb
  have ht' : bgInodeTable (storeLE desc 14 2 (bgFreeInodesCount desc - 1)) = fs.inodeTable g :=
    (loadLE_storeLE_of_disjoint (.inl (by norm_num))).trans ht
  refine Prog.Sat.bind (hw.writeGroupDesc_ok hg hb' ht' hl fun s hl => ?_)
  have hsb : fs.Takes (some (g, i)) s (some (g, i)) (writeSuperBlock s) := takes_writeSuperBlock hw
  refine Prog.Sat.bind ⟨some (g, i), hsb, ?_⟩
  refine Prog.Sat.bind (p := fs.writeRawInode _ _) (hw.writeRawInode_ok hg hi (hsb.1 hl) fun s _ => ?_)
  exact .inr ⟨g, i, hg, hi, rfl, rfl⟩

/-- Whatever others do, as long as the bitmaps it reads are spared, `allocInode` takes a free inode and
    returns it, or returns `0`. -/
theorem Wellformed.allocInode_ok (preferGroup : ℕ) (hl : fs.Layout s) :
    fs.Ok fs.Returns (fs.allocInode preferGroup) none s := by
  have hall (n : ℕ) (hn : n ≤ fs.groupCount) (s : Sectors) (hl : fs.Layout s) :
      fs.Ok fs.Returns (fs.allocInodeFrom preferGroup n) none s := by
    induction n generalizing s with
    | zero => exact .inl ⟨rfl, rfl⟩
    | succ n ih =>
      have hg : (preferGroup + (fs.groupCount - (n + 1))) % 2 ^ 32 % fs.groupCount < fs.groupCount :=
        mod_lt _ (by omega)
      refine Prog.Sat.bind (hw.readGroupDesc_ok hg hl fun desc s hl hb ht => ?_)
      split
      · exact ih (by omega) s hl
      rw [hb]
      refine Prog.Sat.bind (hw.readBitmap_ok hg hl fun bitmap s hl hbuf => ?_)
      split
      next i hfind =>
        have hi := List.mem_range.1 (List.mem_of_find?_eq_some hfind)
        have hclear : bitAt bitmap i = false := by simpa using List.find?_some hfind
        exact hw.takeInode_ok hg hi hl hb ht hbuf hclear
      · exact ih (by omega) s hl
  exact hall fs.groupCount le_rfl s hl

end Ext2

end HobbyOS
