import HobbyOS.Fs.Read
import HobbyOS.Process.Area
import HobbyOS.Vm.Rows

/-!
# Mapped files

`Mmap::map` of a file allocates pages, clears them, and reads the file into them
(`Mmap::fillFromFile`), page by page. A process then finds the bytes of the file from `offset` on,
as far as the mapping and the file go, and zeros after them (`fillFromFile_shown`).

What `File::seek` returns is kept in an `int`, so filling fails at a position whose bit 31 is set. The
pages are unmapped then, from `va` to `va + roundedLen`. If this wraps around, which a hint at the end
of all addresses brings about, there is nothing to do for the loop, and the pages stay mapped. This is
the only case in which a mapping is not as it should be (`showsFile_iff`).
-/

namespace HobbyOS

open Function List Nat Option Regions

/-- What `Mmap::fillFromFile` reads for the page `i`, unless seeking or reading fails. -/
def FileHeap.source (h : FileHeap) (blockMap : ℕ → Bool) (f : File) (offset i toRead : ℕ) :
    Option (List UInt8) :=
  let (f, n) := f.seek (offset + i * pageSize)
  if Int.bmod n (2 ^ 32) < 0 then none
  else
    match f.inode with
    | .regular num =>
      let read := (h.regular num).read h.blockSize blockMap
      let n := (f.read (fun pos len => Int.bmod (read pos len).length (2 ^ 32)) toRead).2
      if n < 0 then none else some (read f.offset toRead)
    | _ => none

/-- A descriptor of a regular file, open for reading. -/
structure FileHeap.Opened (h : FileHeap) (f : File) (num : ℕ) : Prop where
  inode : f.inode = .regular num
  readable : f.Readable
  size_lt : (h.regular num).size < 2 ^ 32

namespace FileHeap

variable {h : FileHeap} {blockMap : ℕ → Bool} {f : File} {num offset i toRead : ℕ}

theorem blockSize_pos (h : FileHeap) : 0 < h.blockSize := by
  rw [blockSize, shiftLeft_eq]
  positivity

/-- `File::seek` to the page `i` returns a negative `int`. -/
def Stuck (offset i : ℕ) : Prop := 2 ^ 31 ≤ (offset + i * pageSize) % 2 ^ 32

instance : Decidable (Stuck offset i) := inferInstanceAs (Decidable (_ ≤ _))

/-- Up to a page is read, unless bit 31 of the position is set. -/
theorem source_eq (hf : h.Opened f num) (hpos : offset + i * pageSize < 2 ^ 63)
    (hread : toRead ≤ pageSize) : h.source blockMap f offset i toRead = if Stuck offset i then none
      else some ((List.range (min toRead ((h.regular num).size - (offset + i * pageSize)))).map
        fun k => (h.regular num).byte h.blockSize blockMap (offset + i * pageSize + k)) := by
  rw [source, File.seek_of_lt hpos]
  dsimp only
  by_cases hbit : Stuck offset i
  · rw [if_pos hbit, if_pos ((bmod_neg_iff _).2 hbit)]
  rw [if_neg hbit, if_neg (mt (bmod_neg_iff _).1 hbit)]
  generalize offset + i * pageSize = pos at hpos ⊢
  have hinode : (f.setOffset pos).inode = .regular num := hf.inode
  have hfit : pos + toRead < 2 ^ 64 := by
    simp only [pageSize] at hread
    omega
  rw [hinode]
  dsimp only
  rw [File.read_of_readable (File.setOffset_readable.2 hf.readable), File.setOffset_offset,
    RegularFile.read_eq h.blockSize_pos hf.size_lt hfit]
  generalize hc : min toRead ((h.regular num).size - pos) = c
  have hlen : Int.bmod ((List.range c).map fun k =>
      (h.regular num).byte h.blockSize blockMap (pos + k)).length (2 ^ 32) = (c : ℤ) := by
    rw [length_map, length_range]
    refine Int.bmod_eq_of_le ?_ ?_
    · norm_num
    · simp only [pageSize] at hread
      norm_num
      omega
  rw [hlen, if_neg (show ¬ (c : ℤ) = -1 by omega)]
  rw [if_neg (show ¬ (c : ℤ) < 0 by omega)]

end FileHeap

/-- The byte `j` of a mapping of `length` bytes of a file. -/
def RegularFile.image (r : RegularFile) (blockSize : ℕ) (blockMap : ℕ → Bool)
    (offset length j : ℕ) : UInt8 :=
  if j < length ∧ offset + j < r.size then r.byte blockSize blockMap (offset + j) else 0

namespace Mmap

variable {σ : Type*} {P : Pool σ ℕ} {h : FileHeap} {blockMap : ℕ → Bool} {f : File}
  {num offset length va pages i k : ℕ} {pmt : PMT} {ph : Phys σ}

/-! ## Filling -/

/-- What is still to be read before the page `i`. -/
def remainingAt (r : RegularFile) (offset length i : ℕ) : ℕ :=
  length - min length (min (i * pageSize) (r.size - offset))

/-- The bytes which were read for a page, with the zeros after them. -/
theorem overwrite_image (r : RegularFile) (blockSize : ℕ) (hlt : i < pageSize) :
    overwrite ((List.range (min (min (remainingAt r offset length k) pageSize)
      (r.size - (offset + k * pageSize)))).map fun off =>
        r.byte blockSize blockMap (offset + k * pageSize + off)) (fun _ => 0) i =
      r.image blockSize blockMap offset length (k * pageSize + i) := by
  rw [overwrite, List.getElem?_map, RegularFile.image, remainingAt]
  by_cases hin : i < min (min (length - min length (min (k * pageSize) (r.size - offset))) pageSize)
      (r.size - (offset + k * pageSize))
  · rw [List.getElem?_range hin, if_pos (by omega), map_some, getD_some,
      Nat.add_assoc]
  · rw [List.getElem?_eq_none (by rw [length_range]; exact Nat.not_lt.1 hin),
      if_neg (by omega)]
    rfl

/-- `Mmap::fillFromFile` reads the file into pages which are different ones, and empty; it fails if it
    gets stuck. -/
theorem fillFromFile_shown (hf : h.Opened f num) (hlen : offset + length < 2 ^ 63)
    (hpages : ∀ k < pages, k * pageSize < length)
    (hfound : ∀ k < pages, pmt.translate (pageAt va k) ≠ 0)
    (hzero : ∀ k < pages, ph.mem (pmt.translate (pageAt va k)) = fun _ => 0)
    (hinj : ∀ j k, j < pages → k < pages →
      pmt.translate (pageAt va j) = pmt.translate (pageAt va k) → j = k) :
    (fillFromFile (some (h.source blockMap f offset)) pmt va pages length ph).Holds
      (fun s => (∀ k < pages, ¬ FileHeap.Stuck offset k) ∧ ∀ k < pages, ∀ off < pageSize,
        s.1.mem (pmt.translate (pageAt va k)) off =
          (h.regular num).image h.blockSize blockMap offset length (k * pageSize + off))
      (fun _ => ∃ k < pages, FileHeap.Stuck offset k) False := by
  rw [fillFromFile]
  refine (tryRange_induct (P := fun i (s : Phys σ × ℕ) =>
    s.2 = remainingAt (h.regular num) offset length i ∧ (∀ k < i, ¬ FileHeap.Stuck offset k) ∧
    (∀ k < i, ∀ off < pageSize, s.1.mem (pmt.translate (pageAt va k)) off =
      (h.regular num).image h.blockSize blockMap offset length (k * pageSize + off)) ∧
    ∀ k < pages, i ≤ k → s.1.mem (pmt.translate (pageAt va k)) = fun _ => 0)
    ⟨by rw [remainingAt, Nat.zero_mul, Nat.zero_min, Nat.min_zero, Nat.sub_zero], by simp, by simp,
      fun k hk _ => hzero k hk⟩ fun i s hi hs => ?_).imp (fun s hs => ⟨hs.2.1, hs.2.2.1⟩)
      fun _ hs => hs
  obtain ⟨hrem, hnot, hdone, hrest⟩ := hs
  have hstart := hpages i hi
  have hne : s.2 ≠ 0 := by
    rw [hrem, remainingAt]
    omega
  rw [fillStep, if_neg hne]
  rw [if_neg (hfound i hi), FileHeap.source_eq hf (by omega) (min_le_right _ _)]
  by_cases hstuck : FileHeap.Stuck offset i
  · rw [if_pos hstuck]
    exact ⟨i, hi, hstuck⟩
  rw [if_neg hstuck]
  refine ⟨?_, fun k hk => ?_, fun k hk off hoff => ?_, fun k hk hik => ?_⟩
  · rw [length_map, length_range, hrem, remainingAt, remainingAt, succ_mul]
    omega
  · rcases Nat.lt_succ_iff_lt_or_eq.1 hk with hk | rfl
    · exact hnot k hk
    · exact hstuck
  · dsimp only
    rcases Nat.lt_succ_iff_lt_or_eq.1 hk with hk | rfl
    · -- The pages before are other ones.
      have hother : pmt.translate (pageAt va k) ≠ pmt.translate (pageAt va i) := fun he =>
        hk.ne (hinj k i (hk.trans hi) hi he)
      rw [update_of_ne hother]
      exact hdone k hk off hoff
    · rw [update_self, hrest k hi le_rfl, hrem]
      exact overwrite_image _ _ hoff
  · dsimp only
    have hother : pmt.translate (pageAt va k) ≠ pmt.translate (pageAt va i) := fun he =>
      (lt_of_succ_le hik).ne' (hinj k i hk hi he)
    rw [update_of_ne hother]
    exact hrest k hk (le_of_succ_le hik)

/-! ## New pages -/

/-- The first `i` pages from `va` on are mapped to pages which are different ones, empty, and stay
    handed out. -/
structure Backed (live : σ → Set ℕ → Prop) (va : ℕ) (flags : Flags) (i : ℕ) (pmt : PMT)
    (t : Phys σ × PMT) : Prop where
  filled : Filled (fun _ _ => True) flags (pageAt va) i pmt t.2
  reserved : Reserved live {q | ∃ k < i, t.2.translate (pageAt va k) = q} t.1
  zero : ∀ k < i, t.1.mem (t.2.translate (pageAt va k)) = fun _ => 0
  injective : ∀ j k, j < i → k < i →
    t.2.translate (pageAt va j) = t.2.translate (pageAt va k) → j = k

variable {live : σ → Set ℕ → Prop} {flags : Flags} {t u : Phys σ × PMT} {page : ℕ}

/-- One more page is mapped. -/
theorem Backed.succ (hb : Backed live va flags i pmt t)
    (hres : Reserved live (insert page {q | ∃ k < i, t.2.translate (pageAt va k) = q}) u.1)
    (hmem : u.1.mem = update t.1.mem page fun _ => 0)
    (hpage : ∀ k < i, t.2.translate (pageAt va k) ≠ page) (hnone : t.2.lookup (pageAt va i) = none)
    (hl : ∀ n, u.2.lookup n = if n = pageAt va i then some ⟨page, flags⟩ else t.2.lookup n) :
    Backed live va flags (i + 1) pmt u := by
  have hold : ∀ k < i, u.2.translate (pageAt va k) = t.2.translate (pageAt va k) := by
    intro k hk
    obtain ⟨-, p, -, hp⟩ := hb.filled.inside k hk
    have hne : pageAt va k ≠ pageAt va i := fun he => by
      rw [he, hnone] at hp
      cases hp
    rw [PMT.translate, PMT.translate, hl, if_neg hne]
  have hnew : u.2.translate (pageAt va i) = page := by rw [PMT.translate, hl, if_pos rfl]
  refine ⟨hb.filled.succ trivial hnone hl, ?_, fun k hk => ?_, fun j k hj hk he => ?_⟩
  · obtain ⟨A, hA, hlive⟩ := hres
    refine ⟨A, fun q hq => hA ?_, hlive⟩
    obtain ⟨k, hk, rfl⟩ := hq
    rcases Nat.lt_succ_iff_lt_or_eq.1 hk with hk | rfl
    · exact .inr ⟨k, hk, (hold k hk).symm⟩
    · exact .inl hnew
  · rw [hmem]
    rcases Nat.lt_succ_iff_lt_or_eq.1 hk with hk | rfl
    · rw [hold k hk, update_of_ne (hpage k hk)]
      exact hb.zero k hk
    · rw [hnew, update_self]
  rcases Nat.lt_succ_iff_lt_or_eq.1 hj with hj | rfl <;>
    rcases Nat.lt_succ_iff_lt_or_eq.1 hk with hk | rfl
  · rw [hold j hj, hold k hk] at he
    exact hb.injective j k hj hk he
  · rw [hold j hj, hnew] at he
    exact absurd he (hpage j hj)
  · rw [hold k hk, hnew] at he
    exact absurd he.symm (hpage k hk)
  · rfl

/-- `Mmap::mapPages`, in any state of the tables. It does not fail if there is always a page. -/
theorem mapPages_backed (hP : P.Lawful live) (hv : flags.v) {s : Phys σ × PMT}
    (hs : Reserved live ∅ s.1) : (mapPages P va pages flags s).Holds
      (fun t => Backed live va flags pages s.2 t)
      (fun _ => ¬ ((∀ s, (P.take s).1.isSome) ∧ .refused ∉ s.1.log)) (Occupied va pages s.2) := by
  generalize hU : ((∀ s, (P.take s).1.isSome) ∧ .refused ∉ s.1.log) = U
  have hstart : Backed live va flags 0 s.2 s := by
    refine ⟨filled_zero, ?_, by simp, by simp⟩
    obtain ⟨A, -, hlive⟩ := hs
    exact ⟨A, by simp, hlive⟩
  refine (tryRange_induct (P := fun i (t : Phys σ × PMT) => Backed live va flags i s.2 t ∧
    (U → .refused ∉ t.1.log)) ⟨hstart, fun h => (hU ▸ h).2⟩ fun i t hi ht => ?_).imp
    (fun _ ht => ht.1) fun _ h => h
  obtain ⟨hb, hlog⟩ := ht
  have htake (ph : Phys σ) (h : U → .refused ∉ ph.log) (hu : U) :
      .refused ∉ (kallocPage P ph).2.log := kallocPage_unlimited (hU ▸ hu).1 ph (h hu)
  have hlog' := htake t.1 hlog
  rw [mapPagesStep]
  rcases halloc : kallocPage P t.1 with ⟨_ | page, ph⟩
  · rw [halloc] at hlog'
    exact fun hu => hlog' hu (Owned.refused_mem halloc)
  rw [halloc] at hlog'
  dsimp only
  -- The page is a new one, and stays handed out while tables are allocated.
  have hnew := hb.reserved.notMem hP halloc
  have hmem : ph.mem = t.1.mem := by
    have hmem := kallocPage_mem (P := P) t.1
    rwa [halloc] at hmem
  have hres : Reserved live (insert page {q | ∃ k < i, t.2.translate (pageAt va k) = q})
      { ph with mem := update ph.mem page fun _ => 0 } := by
    obtain ⟨A, hA, hlive⟩ := hb.reserved
    obtain ⟨pool, htake, rfl⟩ := Owned.kallocPage_some halloc
    exact ⟨insert page A, Set.insert_subset_insert hA, (hP.take_some hlive htake).2⟩
  have hmem' : ({ ph with mem := update ph.mem page fun _ => 0 } : Phys σ).mem =
      update t.1.mem page fun _ => 0 := by rw [hmem]
  have hphys : (PMT.mapPage (pageAt va i) P page flags
      ({ ph with mem := update ph.mem page fun _ => 0 }, t.2)).Holds _ _ True :=
    PMT.mapPage_phys (I := fun ph => (Reserved live _ ph ∧ ph.mem = _) ∧ (U → .refused ∉ ph.log))
      (fun ph h => ⟨⟨h.1.1.kallocPage hP, by rw [kallocPage_mem]; exact h.1.2⟩, htake ph h.2⟩)
      ⟨⟨hres, hmem'⟩, hlog'⟩
  have hmap : (PMT.mapPage (pageAt va i) P page flags
      ({ ph with mem := update ph.mem page fun _ => 0 }, t.2)).Holds _ _ _ := mapPage_cases hv _
  generalize PMT.mapPage (pageAt va i) P page flags _ = r at hphys hmap ⊢
  cases r with
  | ok u =>
    obtain ⟨⟨hres, hmem⟩, hlog⟩ := hphys
    exact ⟨hb.succ hres hmem (fun k hk he => hnew ⟨k, hk, he⟩) hmap.1 hmap.2.1, hlog⟩
  | fail u => exact fun hu => hphys.2 hu hmap.2.2
  | panic =>
    -- What is mapped there was mapped before the loop, or in an earlier round.
    refine ⟨i, hi, ?_⟩
    by_cases hn : ∃ k < i, pageAt va k = pageAt va i
    · exact .inr hn
    · push Not at hn
      rw [← hb.filled.outside _ fun k hk => (hn k hk).symm]
      exact .inl hmap

/-- The number of the pages is that of the page tables at most: their indices repeat. -/
theorem Backed.pages_le (hb : Backed live va flags pages pmt t) : pages ≤ 2 ^ 27 := by
  by_contra hlt
  have hagain : pageAt va (2 ^ 27) = pageAt va 0 := by
    rw [pageAt, pageAt, vpn, vpn]
    simp only [pageSize, Vpn.mk.injEq]
    omega
  exact absurd (hb.injective _ _ (by omega) (by omega) (congrArg _ hagain)) (by norm_num)

/-! ## Mapping files -/

/-- The byte a process reads at an address. -/
def byteAt (s : Space σ) (addr : ℕ) : Option UInt8 :=
  (s.pmt.lookup (vpn addr)).map fun pte => s.ph.mem pte.page (addr % pageSize)

theorem vpn_add (hva : va % pageSize = 0) (k : ℕ) {off : ℕ} (hoff : off < pageSize) :
    vpn (va + (k * pageSize + off)) = pageAt va k := by
  rw [pageAt, vpn, vpn]
  simp only [pageSize, Vpn.mk.injEq] at *
  omega

variable {args : MapArgs} {m m' m1 : Mmap} {s s' s1 : Space σ} {v : ℕ}

/-- A length which is not too long is rounded up. -/
theorem lt_of_lt_pages (hlen : length < 2 ^ 63) (hk : k < pageRoundUp length / pageSize) :
    k * pageSize < length := by
  rw [pageRoundUp] at hk
  simp only [pageSize] at *
  omega

section MapFile

variable (hP : P.Lawful live) (h0 : ∀ s A, live s A → 0 ∉ A) (hs : Reserved live ∅ s.ph)
  (hfile : args.file = some (h.source blockMap f offset)) (hf : h.Opened f num)
  (hlen : offset + args.length < 2 ^ 63)

include hP hs in
/-- The pages of a mapping. -/
theorem backed (hmap : mapPages P va (pageRoundUp args.length / pageSize)
    (protToPte args.prot) (s.ph, s.pmt) = .ok t) :
    Backed live va (protToPte args.prot) (pageRoundUp args.length / pageSize) s.pmt t :=
  (mapPages_backed (s := (s.ph, s.pmt)) hP (show (protToPte args.prot).v from rfl) hs).of_ok hmap

include hP h0 hs hfile hf hlen in
/-- They are filled with the file, or filling gets stuck. -/
theorem fill_shown (hmap : mapPages P va (pageRoundUp args.length / pageSize)
    (protToPte args.prot) (s.ph, s.pmt) = .ok t) :
    (fillFromFile args.file t.2 va (pageRoundUp args.length / pageSize) args.length t.1).Holds
      (fun u => (∀ k < pageRoundUp args.length / pageSize, ¬ FileHeap.Stuck offset k) ∧
        ∀ k < pageRoundUp args.length / pageSize, ∀ off < pageSize,
          (t.2.lookup (pageAt va k)).map (fun pte => u.1.mem pte.page off) =
            some ((h.regular num).image h.blockSize blockMap offset args.length
              (k * pageSize + off)))
      (fun _ => ∃ k < pageRoundUp args.length / pageSize, FileHeap.Stuck offset k) False := by
  have hb := backed hP hs hmap
  obtain ⟨A, hA, hlive⟩ := hb.reserved
  rw [hfile]
  refine (fillFromFile_shown hf hlen (fun k hk => lt_of_lt_pages (by omega) hk) (fun k hk hz => ?_)
    hb.zero hb.injective).imp (fun u hu => ⟨hu.1, fun k hk off hoff => ?_⟩) fun _ hu => hu
  · exact h0 _ _ hlive (hA ⟨k, hk, hz⟩)
  · obtain ⟨-, p, -, hp⟩ := hb.filled.inside k hk
    have hu' := hu.2 k hk off hoff
    rw [PMT.translate, hp] at hu'
    rw [hp, map_some, hu']

include hP h0 hs hfile hf hlen in
theorem mapAt_shown (hanon : args.flags.anonymous = false)
    (hm : mapAt P va args m s = some (v, m', s')) (hv : v ≠ mmapFailed) (hva : va % pageSize = 0) :
    ∀ j < pageRoundUp args.length, byteAt s' (v + j) =
      some ((h.regular num).image h.blockSize blockMap offset args.length j) := by
  rw [mapAt] at hm
  cases hmap : mapPages P va (pageRoundUp args.length / pageSize) (protToPte args.prot)
    (s.ph, s.pmt) with
  | panic =>
    rw [hmap] at hm
    cases hm
  | fail t =>
    rw [hmap] at hm
    cases hm
    exact absurd rfl hv
  | ok t =>
    have hfill := fill_shown hP h0 hs hfile hf hlen hmap
    rw [hmap] at hm
    dsimp only at hm
    rw [hanon, if_neg Bool.false_ne_true] at hm
    generalize fillFromFile _ _ _ _ _ _ = r at hm hfill
    cases r with
    | panic => cases hm
    | fail u =>
      cases hm
      exact absurd rfl hv
    | ok u =>
      cases hm
      intro j hj
      have hsplit : j / pageSize * pageSize + j % pageSize = j := div_add_mod' j pageSize
      have hoff : j % pageSize < pageSize := mod_lt _ (by decide)
      have hk : j / pageSize < pageRoundUp args.length / pageSize := by
        rwa [Nat.div_lt_iff_lt_mul (by decide), pageRoundUp_div]
      have hbyte := hfill.2 (j / pageSize) hk (j % pageSize) hoff
      have hvpn := vpn_add hva (j / pageSize) hoff
      have hmod : (va + j) % pageSize = j % pageSize := by
        rw [add_mod, hva, Nat.zero_add, mod_mod]
      rw [hsplit] at hbyte hvpn
      rwa [byteAt, hvpn, hmod]

end MapFile

/-- If filling fails, the pages are unmapped again. -/
theorem mapAt_unfilled {u : Phys σ × ℕ} (hanon : args.flags.anonymous = false)
    (hmap : mapPages P va (pageRoundUp args.length / pageSize) (protToPte args.prot)
      (s.ph, s.pmt) = .ok t)
    (hfill : fillFromFile args.file t.2 va (pageRoundUp args.length / pageSize) args.length t.1 =
      .fail u) : mapAt P va args m s = some (mmapFailed, m, { s with
          ph := (unmapPhysical P va ((va + pageRoundUp args.length) % 2 ^ 64) (u.1, t.2)).1
          pmt := (unmapPhysical P va ((va + pageRoundUp args.length) % 2 ^ 64) (u.1, t.2)).2 }) := by
  rw [mapAt, hmap]
  dsimp only
  rw [hanon, if_neg Bool.false_ne_true, hfill]

/-- `Mmap::map` of a file comes to `mapPages`: the arguments are in order, a range is found, and if
    the address is fixed, the regions in the way are removed. -/
structure Comes (P : Pool σ ℕ) (args : MapArgs) (m : Mmap) (s : Space σ) (va : ℕ) (m1 : Mmap)
    (s1 : Space σ) : Prop where
  length_ne : args.length ≠ 0
  kind : (args.flags.priv || args.flags.shared) = true
  fd_nonneg : 0 ≤ args.fd
  range : ∃ m0, m.allocVA args.hint (pageRoundUp args.length / pageSize) args.flags.fixed =
      some (va, m0) ∧
    (args.flags.fixed = false ∧ m1 = m0 ∧ s1 = s ∨
      args.flags.fixed = true ∧ ∃ u, unmap P va (pageRoundUp args.length) m0 s = some (u, m1, s1))

theorem Comes.map_eq (hc : Comes P args m s va m1 s1) (hanon : args.flags.anonymous = false) :
    map P args m s = mapAt P va args m1 s1 := by
  obtain ⟨hlength, hkind, hfd, m0, ha, hrest⟩ := hc
  have hkind' : ¬ (!args.flags.priv && !args.flags.shared) = true := by
    rw [← Bool.not_or, hkind]
    decide
  have hfd' : ¬ (!args.flags.anonymous && decide (args.fd < 0)) = true := by
    rw [hanon, decide_eq_false (not_lt.2 hfd)]
    decide
  rw [map, if_neg hlength, if_neg hkind', hanon, Bool.false_and, if_neg Bool.false_ne_true]
  rw [hanon] at hfd'
  rw [if_neg hfd']
  dsimp only
  rw [ha]
  dsimp only
  rcases hrest with ⟨hfixed, rfl, rfl⟩ | ⟨hfixed, u, hu⟩
  · rw [hfixed, if_neg Bool.false_ne_true]
  · rw [hfixed, if_pos rfl, hu]
    rfl

/-- What is returned comes from there. -/
theorem exists_comes (hanon : args.flags.anonymous = false)
    (hm : map P args m s = some (v, m', s')) (hv : v ≠ mmapFailed) :
    ∃ va m1 s1, Comes P args m s va m1 s1 ∧ mapAt P va args m1 s1 = some (v, m', s') := by
  rcases map_cases hm with ⟨hv', -⟩ | ⟨⟨hlength, hkind, hfd⟩, va, m0, ha, hm⟩
  · exact absurd hv' hv
  rcases hm with ⟨hfixed, hm⟩ | ⟨hfixed, u, m1, s1, hu, hm⟩
  · exact ⟨va, m0, s, ⟨hlength, hkind, hfd hanon, m0, ha, .inl ⟨hfixed, rfl, rfl⟩⟩, hm⟩
  · exact ⟨va, m1, s1, ⟨hlength, hkind, hfd hanon, m0, ha, .inr ⟨hfixed, u, hu⟩⟩, hm⟩

/-- The range which is found is at the hint, or below where the last one was. -/
theorem allocVA_range {hint : ℕ} {fixed : Bool} (hnext : m.nextHint ≤ mmapTop)
    (hlen : pages * pageSize + mmapBase < 2 ^ 64)
    (ha : m.allocVA hint pages fixed = some (va, m1)) : va % pageSize = 0 ∧
      (va = hint ∧ mmapBase ≤ hint ∧ (hint + pages * pageSize) % 2 ^ 64 ≤ mmapTop ∨
        va + pages * pageSize ≤ mmapTop) := by
  rw [allocVA] at ha
  rw [mod_eq_of_lt hlen] at ha
  split_ifs at ha with hfixed hzero hmod htop hfree hroom
  · cases ha
    simp only [Bool.or_eq_true, decide_eq_true_eq, not_or, not_lt] at htop
    exact ⟨not_not.1 hmod, .inl ⟨rfl, htop⟩⟩
  · cases ha
    simp only [Bool.and_eq_true, decide_eq_true_eq] at hfree
    exact ⟨hfree.1.1.1.2, .inl ⟨rfl, hfree.1.1.2, hfree.1.2⟩⟩
  obtain ⟨va', hva', ⟨⟩⟩ := map_eq_some_iff.1 ha
  obtain ⟨-, hle, hmod, -⟩ := allocFrom_some hva'
  rw [sub64, if_pos (by omega)] at hle hmod
  refine ⟨by rw [hmod, mul_mod_left], .inr ?_⟩
  have := div_mul_le_self (m.nextHint - pages * pageSize) pageSize
  omega

/-! ## The result -/

/-- A mapping shows the file, and if it cannot be filled, then none of its pages stays mapped. -/
structure ShowsFile (P : Pool σ ℕ) (args : MapArgs) (image : ℕ → UInt8) (m : Mmap) (s : Space σ) :
    Prop where
  shown : ∀ v m' s', map P args m s = some (v, m', s') → v ≠ mmapFailed →
    ∀ j < pageRoundUp args.length, byteAt s' (v + j) = some (image j)
  undone : ∀ va m1 s1 t u, Comes P args m s va m1 s1 →
    mapPages P va (pageRoundUp args.length / pageSize) (protToPte args.prot) (s1.ph, s1.pmt) =
      .ok t →
    fillFromFile args.file t.2 va (pageRoundUp args.length / pageSize) args.length t.1 = .fail u →
    ∀ v m' s', map P args m s = some (v, m', s') →
      ∀ j < pageRoundUp args.length, s'.pmt.lookup (vpn (va + j)) = none

/-- A hint from which on the range wraps around, for a part of the file which cannot be read to the
    end: bit 31 is set in the position of a page. -/
structure LeavesPages (args : MapArgs) (offset : ℕ) : Prop where
  length_ne : args.length ≠ 0
  kind : (args.flags.priv || args.flags.shared) = true
  fd_nonneg : 0 ≤ args.fd
  aligned : args.hint % pageSize = 0
  base_le : mmapBase ≤ args.hint
  hint_lt : args.hint < 2 ^ 64
  wraps : 2 ^ 64 ≤ args.hint + pageRoundUp args.length
  le_top : (args.hint + pageRoundUp args.length) % 2 ^ 64 ≤ mmapTop
  pages_le : pageRoundUp args.length / pageSize ≤ 2 ^ 27
  stuck : ∃ k < pageRoundUp args.length / pageSize, FileHeap.Stuck offset k

theorem showsFile (hP : P.Lawful live) (h0 : ∀ s A, live s A → 0 ∉ A)
    (hanon : args.flags.anonymous = false) (hfile : args.file = some (h.source blockMap f offset))
    (hf : h.Opened f num) (hlen : offset + args.length < 2 ^ 63) (hhint : args.hint < 2 ^ 64)
    (hnext : m.nextHint ≤ mmapTop)
    (hsound : ∀ va m1 s1, Comes P args m s va m1 s1 → Reserved live ∅ s1.ph)
    (hnot : ¬ LeavesPages args offset) :
    ShowsFile P args ((h.regular num).image h.blockSize blockMap offset args.length) m s := by
  have hround : pageRoundUp args.length + mmapBase < 2 ^ 64 := by
    rw [pageRoundUp]
    simp only [pageSize, mmapBase]
    omega
  refine ⟨fun v m' s' hm hv => ?_, fun va m1 s1 t u hc hmap hfill v m' s' hm j hj => ?_⟩
  · obtain ⟨va, m1, s1, hc, hmapAt⟩ := exists_comes hanon hm hv
    obtain ⟨m0, ha, -⟩ := hc.range
    have hrange := allocVA_range hnext (by rw [pageRoundUp_div]; exact hround) ha
    exact mapAt_shown hP h0 (hsound va m1 s1 hc) hfile hf hlen hanon hmapAt hv hrange.1
  have hs1 := hsound va m1 s1 hc
  obtain ⟨m0, ha, -⟩ := hc.range
  obtain ⟨hmod, hrange⟩ := allocVA_range hnext (by rw [pageRoundUp_div]; exact hround) ha
  rw [pageRoundUp_div] at hrange
  -- The range does not wrap around.
  have hfit : va + pageRoundUp args.length < 2 ^ 64 := by
    rcases hrange with ⟨rfl, hbase, htop⟩ | htop
    · by_contra hwraps
      have hstuck := fill_shown hP h0 hs1 hfile hf hlen hmap
      rw [hfill] at hstuck
      exact hnot ⟨hc.length_ne, hc.kind, hc.fd_nonneg, hmod, hbase, hhint, not_lt.1 hwraps, htop,
        (backed hP hs1 hmap).pages_le, hstuck⟩
    · exact htop.trans_lt (by decide)
  rw [hc.map_eq hanon, mapAt_unfilled hanon hmap hfill] at hm
  cases hm
  have hcleared := unmapPhysical_cleared (P := P) va
    ((va + pageRoundUp args.length) % 2 ^ 64) u.1 t.2
  rw [mod_eq_of_lt hfit] at hcleared ⊢
  have hk : j / pageSize < pageCount va (va + pageRoundUp args.length) := by
    have hmod' := pageRoundUp_mod args.length
    rw [pageCount, Nat.add_sub_cancel_left]
    simp only [pageSize] at *
    omega
  have hvpn := vpn_add hmod (j / pageSize) (mod_lt j (show 0 < pageSize by decide))
  rw [div_add_mod'] at hvpn
  rw [hvpn]
  exact hcleared.inside _ hk

/-- Up to `2 ^ 27` pages have different indices. -/
theorem pageAt_ne {j : ℕ} (hjk : j < k) (hk : k < 2 ^ 27) (hva : va % pageSize = 0) :
    pageAt va j ≠ pageAt va k := by
  rw [pageAt, pageAt, vpn, vpn]
  simp only [pageSize, ne_eq, Vpn.mk.injEq] at *
  omega

/-- There are no regions in the way of a process which has mapped nothing. -/
theorem Comes.reserved_blank {s1 : Space ℕ} (hc : Comes .counting args .new blank va m1 s1) :
    Reserved Pool.Counted ∅ s1.ph := by
  suffices h : s1 = blank by
    rw [h]
    exact ⟨∅, le_rfl, by decide, by simp⟩
  obtain ⟨m0, ha, ⟨-, -, rfl⟩ | ⟨hfixed, u, hu⟩⟩ := hc.range
  · rfl
  rw [hfixed] at ha
  obtain ⟨-, rfl⟩ := allocVA_fixed ha
  rw [unmap] at hu
  split_ifs at hu
  · cases hu
    rfl
  · cases hu
    rfl
  · cases hu
    rfl

/-- A process which has mapped nothing comes to `mapPages`, at the hint. -/
theorem LeavesPages.comes (hl : LeavesPages args offset) :
    Comes .counting args .new blank args.hint .new blank := by
  have hpos : pageRoundUp args.length ≠ 0 := by
    have := hl.wraps
    have := hl.hint_lt
    omega
  have hne : args.hint ≠ 0 := by
    have := hl.base_le
    simp only [mmapBase] at this
    omega
  refine ⟨hl.length_ne, hl.kind, hl.fd_nonneg, .new, ?_, ?_⟩
  · rw [allocVA]
    rw [pageRoundUp_div]
    cases args.flags.fixed with
    | true =>
      rw [if_pos rfl, if_neg hne, if_neg (not_not.2 hl.aligned), if_neg]
      simp only [Bool.or_eq_true, decide_eq_true_eq, not_or, not_lt]
      exact ⟨hl.base_le, hl.le_top⟩
    | false =>
      rw [if_neg Bool.false_ne_true, if_pos]
      simp only [Bool.and_eq_true, decide_eq_true_eq]
      exact ⟨⟨⟨⟨hne, hl.aligned⟩, hl.base_le⟩, hl.le_top⟩, rfl⟩
  · cases hfixed : args.flags.fixed with
    | false => exact .inl ⟨rfl, rfl, rfl⟩
    | true =>
      refine .inr ⟨rfl, 0, ?_⟩
      rw [unmap, if_neg hpos, if_neg (not_not.2 hl.aligned)]
      rfl

/-- Where pages are left, a process which has mapped nothing finds them. -/
theorem LeavesPages.not_showsFile (hl : LeavesPages args offset)
    (hanon : args.flags.anonymous = false) (hfile : args.file = some (h.source blockMap f offset))
    (hf : h.Opened f num) (hlen : offset + args.length < 2 ^ 63) (image : ℕ → UInt8) :
    ¬ ShowsFile .counting args image .new blank := by
  intro hshows
  have hpos : 0 < pageRoundUp args.length := by
    have := hl.wraps
    have := hl.hint_lt
    omega
  have hround : pageRoundUp args.length < 2 ^ 64 := by
    rw [pageRoundUp]
    simp only [pageSize]
    omega
  have hc := hl.comes
  have hs : Reserved Pool.Counted ∅ blank.ph := ⟨∅, le_rfl, by decide, by simp⟩
  have h0 : ∀ s A, Pool.Counted s A → 0 ∉ A := fun _ _ => Pool.Counted.zero_notMem
  set pages := pageRoundUp args.length / pageSize
  have hbacked : (mapPages .counting args.hint pages (protToPte args.prot)
      (blank.ph, blank.pmt)).Holds _ _ _ :=
    mapPages_backed Pool.counting_lawful rfl hs
  cases hmap : mapPages .counting args.hint pages (protToPte args.prot)
      (blank.ph, blank.pmt) with
  | fail t =>
    rw [hmap] at hbacked
    exact hbacked ⟨fun _ => rfl, not_mem_nil⟩
  | panic =>
    rw [hmap] at hbacked
    obtain ⟨k, hk, hsome | ⟨j, hjk, he⟩⟩ := hbacked
    · cases hsome
    · exact pageAt_ne hjk (hk.trans_le hl.pages_le) hl.aligned he
  | ok t =>
    rw [hmap] at hbacked
    have hfill := fill_shown Pool.counting_lawful h0 hs hfile hf hlen hmap
    cases hu : fillFromFile args.file t.2 args.hint pages args.length t.1 with
    | ok u =>
      rw [hu] at hfill
      obtain ⟨k, hk, hstuck⟩ := hl.stuck
      exact hfill.1 k hk hstuck
    | panic =>
      rwa [hu] at hfill
    | fail u =>
      -- There is nothing to do for the loop which unmaps the pages.
      have hnone := hshows.undone _ _ _ t u hc hmap hu _ _ _
        ((hc.map_eq hanon).trans (mapAt_unfilled hanon hmap hu)) 0 hpos
      have hcount : pageCount args.hint ((args.hint + pageRoundUp args.length) % 2 ^ 64) = 0 := by
        have hwraps := hl.wraps
        rw [pageCount]
        simp only [pageSize] at *
        omega
      rw [unmapPhysical, hcount] at hnone
      obtain ⟨-, p, -, hfirst⟩ := hbacked.filled.inside 0 (Nat.div_pos (le_of_dvd hpos
        (dvd_of_mod_eq_zero (pageRoundUp_mod _))) (by decide))
      rw [pageAt, Nat.zero_mul] at hfirst
      rw [show (forRange _ 0 (u.1, t.2)).2.lookup (vpn (args.hint + 0)) = _ from hfirst] at hnone
      cases hnone

/-- For every file, descriptor, offset and length: a mapping shows the file in every state of the
    memory, and none of its pages stays mapped if it cannot be filled, unless the range wraps around
    and filling gets stuck. -/
theorem showsFile_iff (hanon : args.flags.anonymous = false)
    (hfile : args.file = some (h.source blockMap f offset)) (hf : h.Opened f num)
    (hlen : offset + args.length < 2 ^ 63) (hhint : args.hint < 2 ^ 64) :
    (∀ (σ : Type) (P : Pool σ ℕ) (live : σ → Set ℕ → Prop), P.Lawful live →
      (∀ s A, live s A → 0 ∉ A) → ∀ (m : Mmap) (s : Space σ), m.nextHint ≤ mmapTop →
      (∀ va m1 s1, Comes P args m s va m1 s1 → Reserved live ∅ s1.ph) →
      ShowsFile P args ((h.regular num).image h.blockSize blockMap offset args.length) m s) ↔
      ¬ LeavesPages args offset := by
  constructor
  · intro hall hl
    exact hl.not_showsFile hanon hfile hf hlen _ (hall ℕ .counting Pool.Counted
      Pool.counting_lawful (fun _ _ => Pool.Counted.zero_notMem) .new blank le_rfl
      fun _ _ _ hc => hc.reserved_blank)
  · intro hnot σ P live hP h0 m s hnext hsound
    exact showsFile hP h0 hanon hfile hf hlen hhint hnext hsound hnot

/-- A file of five bytes, and its descriptor. -/
def fiveBytes : FileHeap where
  pipes _ := none
  made := 0
  deleted := []
  opened := 1
  closed := []
  logBlockSize := 0
  regular _ := ⟨fun k => [1, 2, 3, 4, 5].getD k 0, 5⟩

def fiveBytesFile : File := ⟨0, .regular 12, oRdonly, 0⟩

theorem fiveBytes_opened : fiveBytes.Opened fiveBytesFile 12 := ⟨rfl, .inl rfl, by decide⟩

/-- A mapping of the file. -/
def mapFive (hint offset : ℕ) : MapArgs :=
  ⟨hint, 5, .read, ⟨false, true, false, false⟩, 3,
    some (fiveBytes.source (fun _ => true) fiveBytesFile offset)⟩

/-- The five bytes are shown. -/
theorem showsFile_iff_five : ShowsFile .counting (mapFive 0 0)
    ((fiveBytes.regular 12).image fiveBytes.blockSize (fun _ => true) 0 5) .new blank :=
  (showsFile_iff rfl rfl fiveBytes_opened (by decide) (by decide)).2
    (fun hl => absurd hl.base_le (by decide)) ℕ .counting Pool.Counted Pool.counting_lawful
    (fun _ _ => Pool.Counted.zero_notMem) .new blank le_rfl fun _ _ _ hc => hc.reserved_blank

/-- A part behind the end of the file, at the last page of all addresses: `mmap` fails, and the page
    stays mapped. -/
theorem map_leaves_page : ((Mmap.new.map .counting (mapFive (2 ^ 64 - pageSize) (2 ^ 31))
    blank).map fun o => (o.1, (o.2.2.pmt.lookup (vpn (2 ^ 64 - pageSize))).isSome)) =
      some (mmapFailed, true) := by
  decide +kernel

end Mmap

end HobbyOS
