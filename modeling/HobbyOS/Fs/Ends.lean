import HobbyOS.Fs.File

/-!
# The ends of pipes

The files in all tables are a multiset, of which every file that was ever opened is an element until
it is closed, once. The counters `m_readers` and `m_writers` of a pipe are the numbers of the files
among them which are its ends, and a pipe is deleted when there are none (`Accounted`).
-/

namespace HobbyOS

open FileHeap Function Multiset Option

/-- The file is an end of a pipe, for writing or not. -/
def File.End (p : ℕ) (w : Bool) (f : File) : Prop :=
  f.inode = .pipe p ∧ decide (f.flags &&& 3 = oWronly) = w

instance (p : ℕ) (w : Bool) : DecidablePred (File.End p w) :=
  fun _ => inferInstanceAs (Decidable (_ ∧ _))

namespace PipeInode

variable (pipe : PipeInode) {f : File} {p : ℕ}

/-- How many ends are counted, for writing or not. -/
def ends (w : Bool) : ℕ := bif w then pipe.writers else pipe.readers

theorem onOpen_ends (hf : f.inode = .pipe p) (w : Bool) :
    (pipe.onOpen f.flags).ends w = pipe.ends w + if f.End p w then 1 else 0 := by
  rw [onOpen]
  cases w <;> split_ifs <;> simp_all [ends, File.End]

theorem onClose_ends (hf : f.inode = .pipe p) (w : Bool) :
    (pipe.onClose f.flags).ends w = pipe.ends w - if f.End p w then 1 else 0 := by
  rw [onClose]
  cases w <;> split_ifs <;> simp_all [ends, File.End]

theorem unused_iff : pipe.Unused ↔ ∀ w, pipe.ends w = 0 := by
  simp [Unused, ends]

/-- The pipe, if it is there, counts its ends, and it is there if there are any. -/
def Fits (o : Option PipeInode) (count : Bool → ℕ) : Prop :=
  (∀ pipe, o = some pipe → ∀ w, pipe.ends w = count w) ∧ (o = none ↔ ∀ w, count w = 0)

end PipeInode

/-- The files are those which were opened and not closed, and the pipes those which have ends, as
    many as they count. -/
structure Accounted (h : FileHeap) (M : Multiset File) : Prop where
  ends : ∀ p pipe, h.pipes p = some pipe → ∀ w, pipe.ends w = M.countP (File.End p w)
  used : ∀ p pipe, h.pipes p = some pipe → ¬ pipe.Unused
  dead : ∀ p, h.pipes p = none → ∀ f ∈ M, f.inode ≠ .pipe p
  unmade : ∀ p, h.made ≤ p → h.pipes p = none
  nodup : h.deleted.Nodup
  deleted : ∀ p, p ∈ h.deleted ↔ p < h.made ∧ h.pipes p = none
  ids : M.map File.id + h.closed = Multiset.range h.opened

namespace Accounted

variable {h h' : FileHeap} {M N : Multiset File} {f : File} {p : ℕ}

theorem countP_end : (∀ w, M.countP (File.End p w) = 0) ↔ ∀ f ∈ M, f.inode ≠ .pipe p := by
  simp only [countP_eq_zero]
  exact ⟨fun hz f hf hi => hz _ f hf ⟨hi, rfl⟩, fun hno _ f hf he => hno f hf he.1⟩

theorem of_fits (hfits : ∀ p, PipeInode.Fits (h.pipes p) fun w => M.countP (File.End p w))
    (hunmade : ∀ p, h.made ≤ p → h.pipes p = none) (hnodup : h.deleted.Nodup)
    (hdel : ∀ p, p ∈ h.deleted ↔ p < h.made ∧ h.pipes p = none)
    (hids : M.map File.id + h.closed = Multiset.range h.opened) : Accounted h M where
  ends p := (hfits p).1
  used p pipe hp hu := by
    have hnone := (hfits p).2.2 fun w => ((hfits p).1 pipe hp w).symm.trans (pipe.unused_iff.1 hu w)
    rw [hp] at hnone
    cases hnone
  dead p hp := countP_end.1 ((hfits p).2.1 hp)
  unmade := hunmade
  nodup := hnodup
  deleted := hdel
  ids := hids

variable (ha : Accounted h M)

include ha

theorem fits (p : ℕ) : PipeInode.Fits (h.pipes p) fun w => M.countP (File.End p w) := by
  refine ⟨ha.ends p, fun hp => countP_end.2 (ha.dead p hp), fun hz => ?_⟩
  by_contra hne
  obtain ⟨pipe, hp⟩ := ne_none_iff_exists'.1 hne
  exact ha.used p pipe hp (pipe.unused_iff.2 fun w => (ha.ends p pipe hp w).trans (hz w))

/-- Nothing changes for the pipes. -/
theorem same (hpipes : h'.pipes = h.pipes) (hmade : h'.made = h.made) (hdel : h'.deleted = h.deleted)
    (hcount : ∀ p w, N.countP (File.End p w) = M.countP (File.End p w))
    (hids : N.map File.id + h'.closed = Multiset.range h'.opened) : Accounted h' N := by
  refine of_fits (fun p => ?_) ?_ (hdel ▸ ha.nodup) ?_ hids
  · simpa only [hpipes, hcount] using ha.fits p
  · rw [hpipes, hmade]
    exact ha.unmade
  · rw [hpipes, hmade, hdel]
    exact ha.deleted

omit ha in
theorem countP_cons_of_ne (hf : ∀ p, f.inode ≠ .pipe p) (p : ℕ) (w : Bool) :
    (f ::ₘ M).countP (File.End p w) = M.countP (File.End p w) :=
  countP_cons_of_neg _ fun he => hf p he.1

theorem map_id_cons (hf : f.id = h.opened) :
    (f ::ₘ M).map File.id + h.closed = Multiset.range (h.opened + 1) := by
  rw [map_cons, cons_add, ha.ids, hf, range_succ]

/-- A file is opened which is not the end of a pipe. -/
theorem openFile {inode : Inode} (hi : ∀ p, inode ≠ .pipe p) (flags : ℕ) :
    Accounted (h.openFile inode flags).1 ((h.openFile inode flags).2 ::ₘ M) :=
  ha.same rfl rfl rfl (countP_cons_of_ne hi) (ha.map_id_cons rfl)

section

variable (hother : ∀ q, q ≠ p → ∀ w, N.countP (File.End q w) = M.countP (File.End q w))

include hother

/-- One pipe changes. -/
theorem fits_update {o : Option PipeInode}
    (hself : PipeInode.Fits o fun w => N.countP (File.End p w)) (q : ℕ) :
    PipeInode.Fits (Function.update h.pipes p o q) fun w => N.countP (File.End q w) := by
  by_cases hq : q = p
  · rwa [hq, update_self]
  · simpa only [update_of_ne hq, hother q hq] using ha.fits q

variable (hp : (h.pipes p).isSome) (hmade : h'.made = h.made)
  (hids : N.map File.id + h'.closed = Multiset.range h'.opened)

include hp hmade hids

/-- The counters of a pipe change with its ends. -/
theorem update {pipe : PipeInode} (hends : ∀ w, pipe.ends w = N.countP (File.End p w))
    (hused : ¬ pipe.Unused) (hpipes : h'.pipes = Function.update h.pipes p (some pipe))
    (hdel : h'.deleted = h.deleted) : Accounted h' N := by
  have hself : PipeInode.Fits (some pipe) fun w => N.countP (File.End p w) := by
    refine ⟨?_, iff_of_false (some_ne_none _) fun hz => hused (pipe.unused_iff.2 fun w => ?_)⟩
    · rintro _ ⟨⟩
      exact hends
    · exact (hends w).trans (hz w)
  have hne : ∀ q, h'.pipes q = none ↔ h.pipes q = none := fun q => by
    rw [hpipes]
    by_cases hq : q = p
    · rw [hq, update_self]
      simp [ne_none_iff_isSome.2 hp]
    · rw [update_of_ne hq]
  refine of_fits (hpipes ▸ ha.fits_update hother hself) (fun q hq => ?_) (hdel ▸ ha.nodup)
    (fun q => ?_) hids
  · exact (hne q).2 (ha.unmade q (hmade ▸ hq))
  · rw [hdel, hmade, hne]
    exact ha.deleted q

/-- A pipe without ends is deleted. -/
theorem delete (hends : ∀ w, N.countP (File.End p w) = 0)
    (hpipes : h'.pipes = Function.update h.pipes p none) (hdel : h'.deleted = p :: h.deleted) :
    Accounted h' N := by
  have hlt : p < h.made := by
    by_contra hlt
    rw [ha.unmade p (by omega)] at hp
    cases hp
  have hself : h'.pipes p = none := by rw [hpipes, update_self]
  have hne : ∀ q, q ≠ p → h'.pipes q = h.pipes q := fun q hq => by
    rw [hpipes, update_of_ne hq]
  refine of_fits (hpipes ▸ ha.fits_update hother ⟨nofun, iff_of_true rfl hends⟩) (fun q hq => ?_) ?_
    (fun q => ?_) hids
  · rw [hmade] at hq
    rw [hne q (by omega)]
    exact ha.unmade q hq
  · rw [hdel]
    refine List.nodup_cons.2 ⟨fun hmem => ?_, ha.nodup⟩
    rw [((ha.deleted p).1 hmem).2] at hp
    cases hp
  · rw [hdel, hmade]
    by_cases hqp : q = p
    · rw [hqp, hself]
      exact ⟨fun _ => ⟨hlt, rfl⟩, fun _ => (.head _)⟩
    · rw [hne q hqp, List.mem_cons, or_iff_right hqp]
      exact ha.deleted q

end

/-- The pipe of an end is there. -/
theorem exists_pipe (hf : f ∈ M) (hi : f.inode = .pipe p) : ∃ pipe, h.pipes p = some pipe := by
  cases hp : h.pipes p with
  | none => exact absurd hi (ha.dead p hp f hf)
  | some pipe => exact ⟨pipe, rfl⟩

omit ha

theorem countP_cons_of_pipe {q : ℕ} (hi : f.inode = .pipe p) (hq : q ≠ p) (w : Bool) :
    (f ::ₘ M).countP (File.End q w) = M.countP (File.End q w) := by
  refine countP_cons_of_neg _ fun he => hq ?_
  rw [File.End, hi] at he
  exact (Inode.pipe.inj he.1).symm

/-- A file is copied, and the copy is counted. -/
theorem copy (ha : Accounted h M) (hf : f ∈ M) :
    ∃ h', h.copy f = some (h', { f with id := h.opened }) ∧
      Accounted h' ({ f with id := h.opened } ::ₘ M) := by
  by_cases hi : ∃ p, f.inode = .pipe p
  · obtain ⟨p, hi⟩ := hi
    obtain ⟨pipe, hp⟩ := ha.exists_pipe hf hi
    have hends (w : Bool) : (pipe.onOpen f.flags).ends w =
        ({ f with id := h.opened } ::ₘ M).countP (File.End p w) := by
      rw [pipe.onOpen_ends hi, ha.ends p pipe hp, countP_cons]
      rfl
    refine ⟨_, copy_pipe hi hp, ha.update
      (fun q hq w => countP_cons_of_pipe (f := { f with id := h.opened }) hi hq w)
      (by rw [hp]; rfl) rfl (ha.map_id_cons rfl) hends (fun hu => ?_) rfl rfl⟩
    refine ha.used p pipe hp ((PipeInode.unused_iff _).2 fun w => ?_)
    have := (PipeInode.unused_iff _).1 hu w
    rw [pipe.onOpen_ends hi] at this
    omega
  · have hi : ∀ p, f.inode ≠ .pipe p := fun p hp => hi ⟨p, hp⟩
    exact ⟨_, copy_of_ne hi, ha.same rfl rfl rfl (countP_cons_of_ne hi) (ha.map_id_cons rfl)⟩

theorem map_id_of_cons (ha : Accounted h (f ::ₘ M)) :
    M.map File.id + (f.id :: h.closed : List ℕ) = Multiset.range h.opened := by
  rw [← ha.ids, map_cons, ← cons_coe, add_cons, cons_add]

/-- A file is closed, and is not counted any more; a pipe without ends is deleted. -/
theorem close (ha : Accounted h (f ::ₘ M)) : ∃ h', h.close f = some h' ∧ Accounted h' M := by
  have hf : f ∈ f ::ₘ M := mem_cons_self f M
  by_cases hi : ∃ p, f.inode = .pipe p
  · obtain ⟨p, hi⟩ := hi
    obtain ⟨pipe, hp⟩ := ha.exists_pipe hf hi
    have hends (w : Bool) : (pipe.onClose f.flags).ends w = M.countP (File.End p w) := by
      rw [pipe.onClose_ends hi, ha.ends p pipe hp, countP_cons, Nat.add_sub_cancel]
    have hother (q : ℕ) (hq : q ≠ p) (w : Bool) := (countP_cons_of_pipe (M := M) hi hq w).symm
    refine ⟨_, close_pipe hi hp, ?_⟩
    split_ifs with hu
    · exact ha.delete hother (by rw [hp]; rfl) rfl ha.map_id_of_cons
        (fun w => by rw [← hends, (PipeInode.unused_iff _).1 hu]) rfl rfl
    · exact ha.update hother (by rw [hp]; rfl) rfl ha.map_id_of_cons hends hu rfl rfl
  · have hi : ∀ p, f.inode ≠ .pipe p := fun p hp => hi ⟨p, hp⟩
    exact ⟨_, close_of_ne hi, ha.same rfl rfl rfl (fun p w => (countP_cons_of_ne hi p w).symm)
      ha.map_id_of_cons⟩

/-- A pipe is made, with its ends. -/
theorem pipe (ha : Accounted h M) (h' : FileHeap) {buf : ℕ → UInt8}
    (hpipes : h'.pipes = Function.update h.pipes h.made (some (.new buf)))
    (hmade : h'.made = h.made + 1) (hdel : h'.deleted = h.deleted)
    (hopened : h'.opened = h.opened + 2) (hclosed : h'.closed = h.closed) :
    Accounted h' (⟨h.opened, .pipe h.made, 0, 0⟩ ::ₘ
      ⟨h.opened + 1, .pipe h.made, oWronly, 0⟩ ::ₘ M) := by
  have hno : ∀ f ∈ M, f.inode ≠ .pipe h.made := ha.dead _ (ha.unmade _ le_rfl)
  have hself : h'.pipes h.made = some (.new buf) := by rw [hpipes, update_self]
  have hne : ∀ q, q ≠ h.made → h'.pipes q = h.pipes q := fun q hq => by
    rw [hpipes, update_of_ne hq]
  -- It has one end for reading and one for writing.
  have hone (w : Bool) : (⟨h.opened, .pipe h.made, 0, 0⟩ ::ₘ
      ⟨h.opened + 1, .pipe h.made, oWronly, 0⟩ ::ₘ M).countP (File.End h.made w) = 1 := by
    rw [countP_cons, countP_cons, countP_end.2 hno]
    cases w <;> simp [File.End, oWronly]
  refine of_fits (hpipes ▸ ha.fits_update (fun q hq w => ?_) ⟨?_, iff_of_false (some_ne_none _)
    fun hz => ?_⟩) (fun q hq => ?_) (hdel ▸ ha.nodup) (fun q => ?_) ?_
  · rw [countP_cons_of_pipe rfl hq, countP_cons_of_pipe rfl hq]
  · rintro _ ⟨⟩ w
    refine Eq.trans ?_ (hone w).symm
    cases w <;> rfl
  · exact one_ne_zero ((hone true).symm.trans (hz true))
  · rw [hmade] at hq
    rw [hne q (by omega)]
    exact ha.unmade q (by omega)
  · rw [hdel, hmade, ha.deleted]
    by_cases hqm : q = h.made
    · rw [hqm, hself]
      simp
    · rw [hne q hqm]
      exact and_congr_left fun _ => by omega
  · rw [map_cons, map_cons, cons_add, cons_add, hclosed, ha.ids,
      hopened, cons_swap, range_succ, range_succ]

/-- The offset of a file and the data of regular files do not matter. -/
theorem congr {g : File} {regular : ℕ → RegularFile} (ha : Accounted h (f ::ₘ M)) (hid : g.id = f.id)
    (hi : g.inode = f.inode) (hflags : g.flags = f.flags) :
    Accounted { h with regular := regular } (g ::ₘ M) := by
  refine ha.same rfl rfl rfl (fun p w => ?_) ?_
  · have hend : g.End p w ↔ f.End p w := by rw [File.End, File.End, hi, hflags]
    rw [countP_cons, countP_cons, if_congr hend rfl rfl]
  · rw [map_cons, hid, ← map_cons]
    exact ha.ids

end Accounted

/-! ## Tables -/

namespace FdTable

variable {t : FdTable} {h : FileHeap} {M : Multiset File} {f : File} {fd min : ℕ} {n : ℤ}

/-- The file of a slot. -/
def inSlot (o : Option File) : Multiset File := o.elim 0 ({·})

/-- The files of a table. -/
def files (t : FdTable) : Multiset File := held inSlot maxFds t.fds

/-- A slot of a table changes. -/
theorem files_set (t : FdTable) (hfd : fd < maxFds) :
    ∃ R, t.files = inSlot (t.fds fd) + R ∧ ∀ o, (t.set fd o).files = inSlot o + R :=
  held_update inSlot t.fds hfd

theorem new_files : new.files = 0 := held_zero fun _ _ => rfl

theorem get_eq_some (hf : t.get n = some f) : n.toNat < maxFds ∧ t.fds n.toNat = some f := by
  rw [get] at hf
  split_ifs at hf with hn
  refine ⟨?_, hf⟩
  simp only [maxFds] at hn ⊢
  omega

theorem findFree_eq_some (hf : t.findFree min = some fd) : fd < maxFds ∧ t.fds fd = none := by
  refine ⟨List.mem_range.1 (List.mem_of_find?_eq_some hf), ?_⟩
  have := List.find?_some hf
  simp only [decide_eq_true_eq] at this
  exact isNone_iff_eq_none.1 this.2

/-- A free slot is taken. -/
theorem files_fill (hfd : fd < maxFds) (hnone : t.fds fd = none) (f : File) :
    (t.set fd (some f)).files = f ::ₘ t.files := by
  obtain ⟨R, hR, hset⟩ := t.files_set hfd
  rw [hset, hR, hnone]
  simp [inSlot]

/-- A slot is freed. -/
theorem files_free (hfd : fd < maxFds) (hsome : t.fds fd = some f) :
    t.files = f ::ₘ (t.set fd none).files := by
  obtain ⟨R, hR, hset⟩ := t.files_set hfd
  rw [hset, hR, hsome]
  simp [inSlot]

/-- What a call does: it comes to an end, the files are accounted for, and the table has as many
    users as before. -/
def Keeps (t : FdTable) (M : Multiset File) (r : Option (FdTable × FileHeap × ℤ)) : Prop :=
  ∃ t' h n, r = some (t', h, n) ∧ t'.refCount = t.refCount ∧ Accounted h (t'.files + M)

theorem keeps_self {t' : FdTable} (ht : t'.refCount = t.refCount) (ha : Accounted h (t'.files + M))
    (n : ℤ) : t.Keeps M (some (t', h, n)) :=
  ⟨t', h, n, rfl, ht, ha⟩

theorem allocOrClose_keeps (ha : Accounted h (f ::ₘ (t.files + M))) :
    t.Keeps M (t.allocOrClose f min h) := by
  rw [allocOrClose]
  cases hfree : t.findFree min with
  | none =>
    obtain ⟨h', hc, ha'⟩ := ha.close
    rw [hc]
    exact keeps_self rfl ha' _
  | some fd =>
    obtain ⟨hfd, hnone⟩ := findFree_eq_some hfree
    refine keeps_self rfl ?_ _
    rwa [files_fill hfd hnone, cons_add]

theorem close_keeps (ha : Accounted h (t.files + M)) (n : ℤ) : t.Keeps M (t.close n h) := by
  rw [FdTable.close]
  cases hf : t.get n with
  | none => exact keeps_self rfl ha _
  | some f =>
    obtain ⟨hn, hsome⟩ := get_eq_some hf
    rw [files_free hn hsome, cons_add] at ha
    obtain ⟨h', hc, ha'⟩ := ha.close
    dsimp only
    rw [hc]
    exact keeps_self rfl ha' _

theorem allocAt_keeps (ha : Accounted h (f ::ₘ (t.files + M))) (hfd : fd < maxFds) :
    t.Keeps M (t.allocAt fd f h) := by
  rw [allocAt]
  cases hold : t.fds fd with
  | none =>
    refine keeps_self rfl ?_ _
    rwa [files_fill hfd hold, cons_add]
  | some old =>
    obtain ⟨R, hR, hset⟩ := t.files_set hfd
    rw [hR, hold, inSlot, elim_some, singleton_add, cons_add, cons_swap] at ha
    obtain ⟨h', hc, ha'⟩ := ha.close
    dsimp only
    rw [hc]
    refine keeps_self rfl ?_ _
    rwa [hset, inSlot, elim_some, singleton_add, cons_add]

variable (ha : Accounted h (t.files + M))

include ha

theorem withCopy_keeps {k : File → FileHeap → Option (FdTable × FileHeap × ℤ)}
    (hk : ∀ f h, Accounted h (f ::ₘ (t.files + M)) → t.Keeps M (k f h)) :
    t.Keeps M (t.withCopy n h k) := by
  rw [withCopy]
  cases hf : t.get n with
  | none => exact keeps_self rfl ha _
  | some f =>
    obtain ⟨hn, hsome⟩ := get_eq_some hf
    have hmem : f ∈ t.files + M := by
      rw [files_free hn hsome, cons_add]
      exact mem_cons_self _ _
    obtain ⟨h', hc, ha'⟩ := ha.copy hmem
    dsimp only
    rw [hc]
    exact hk _ h' ha'

theorem pipe2_keeps (buf : ℕ → UInt8) (writable : Bool) : t.Keeps M (t.pipe2 buf writable h) := by
  rw [pipe2]
  split_ifs
  · have hp := ha.pipe { h with
      pipes := Function.update h.pipes h.made (some (.new buf))
      made := h.made + 1
      opened := h.opened + 1 + 1 } rfl rfl rfl rfl rfl
    -- Both ends are closed if there is no slot for one of them.
    have hclose := hp.close
    dsimp only [FileHeap.openFile] at hclose ⊢
    obtain ⟨h1, hc1, ha1⟩ := hclose
    obtain ⟨h2, hc2, ha2⟩ := ha1.close
    cases hr : t.findFree 0 with
    | none =>
      rw [hc1, bind_some, hc2]
      exact keeps_self rfl ha2 _
    | some rfd =>
      obtain ⟨hrfd, hrnone⟩ := findFree_eq_some hr
      dsimp only
      cases hw : (t.set rfd (some ⟨h.opened, .pipe h.made, 0, 0⟩)).findFree 0 with
      | none =>
        rw [hc1, bind_some, hc2]
        refine keeps_self rfl ?_ _
        have hback : ((t.set rfd (some ⟨h.opened, .pipe h.made, 0, 0⟩)).set rfd none).files =
            t.files := by
          obtain ⟨R, hR, hset⟩ := t.files_set hrfd
          rw [set, set, update_idem]
          exact (hset none).trans (by rw [hR, hrnone])
        rwa [hback]
      | some wfd =>
        obtain ⟨hwfd, hwnone⟩ := findFree_eq_some hw
        refine keeps_self rfl ?_ _
        rwa [files_fill hwfd hwnone, files_fill hrfd hrnone, cons_add, cons_add, cons_swap]
  · exact keeps_self rfl ha _

/-- A write keeps what a file is. -/
theorem write_keeps {src : List UInt8} {blockMapAlloc : ℕ → Bool} :
    t.write n src blockMapAlloc h = none ∨ t.Keeps M (t.write n src blockMapAlloc h) := by
  rw [FdTable.write]
  cases hf : t.get n with
  | none => exact .inr (keeps_self rfl ha _)
  | some f =>
    obtain ⟨hn, hsome⟩ := get_eq_some hf
    obtain ⟨R, hR, hset⟩ := t.files_set hn
    rw [hR, hsome, inSlot, elim_some, singleton_add, cons_add] at ha
    dsimp only
    obtain hw | ⟨regular, g, r, hw, hid, hi, hflags⟩ := write_spec (h := h) (f := f)
    · rw [hw]
      exact .inl rfl
    · rw [hw]
      refine .inr (keeps_self rfl ?_ _)
      rw [hset, inSlot, elim_some, singleton_add, cons_add]
      exact ha.congr hid hi hflags

/-- Every call comes to an end and keeps the account, but for writes to something else than
    regular files. -/
theorem call_keeps (c : FdCall) :
    (t.call h c = none ∧ ∃ n src blockMapAlloc, c = .write n src blockMapAlloc) ∨
      t.Keeps M (t.call h c) := by
  cases c with
  | pipe2 buf writable => exact .inr (pipe2_keeps ha buf writable)
  | dup | dupFd => exact .inr (withCopy_keeps ha fun f h ha => allocOrClose_keeps ha)
  | dup3 oldfd newfd =>
    right
    rw [call, dup3]
    split_ifs with he hn
    · exact keeps_self rfl ha _
    · exact keeps_self rfl ha _
    · refine withCopy_keeps ha fun f h ha => allocAt_keeps ha ?_
      simp only [maxFds] at hn ⊢
      omega
  | close n => exact .inr (close_keeps ha n)
  | openRegular num flags =>
    refine .inr (allocOrClose_keeps (ha.openFile (fun p he => ?_) flags))
    cases he
  | write n src blockMapAlloc =>
    exact (write_keeps ha).imp (fun hnone => ⟨hnone, n, src, blockMapAlloc, rfl⟩) id

omit ha

/-- The loop of `clone`: the slots before `fd` have been copied. -/
theorem cloneRest_keeps {n : ℕ} {c : FdTable} (hn : fd + n = maxFds)
    (hfree : ∀ i, fd ≤ i → c.fds i = none) (ha : Accounted h (c.files + (t.files + M))) :
    ∃ c' h', cloneRest n fd t c h = some (c', h') ∧ c'.refCount = c.refCount ∧
      Accounted h' (c'.files + (t.files + M)) := by
  induction n generalizing fd c h with
  | zero => exact ⟨c, h, rfl, rfl, ha⟩
  | succ n ih =>
    have hfd : fd < maxFds := by omega
    rw [cloneRest]
    cases hf : t.fds fd with
    | none => exact ih (by omega) (fun i hi => hfree i (by omega)) ha
    | some f =>
      have hmem : f ∈ c.files + (t.files + M) := by
        rw [files_free hfd hf]
        simp
      obtain ⟨h', hc, ha'⟩ := ha.copy hmem
      dsimp only
      rw [hc, bind_some]
      refine ih (c := c.set fd _) (by omega) (fun i hi => ?_) ?_
      · rw [set_fds_of_ne (by omega)]
        exact hfree i (by omega)
      · rwa [files_fill hfd (hfree fd le_rfl), cons_add]

theorem clone_keeps (ha : Accounted h (t.files + M)) :
    ∃ c h', t.clone h = some (c, h') ∧ c.refCount = 1 ∧ Accounted h' (c.files + (t.files + M)) := by
  refine cloneRest_keeps (c := new) (zero_add _) (fun _ _ => rfl) ?_
  rwa [new_files, zero_add]

/-- The loop of `closeAll`: the slots before `fd` are free. -/
theorem closeRest_keeps {n : ℕ} (hn : fd + n = maxFds) (hfree : ∀ i < fd, t.fds i = none)
    (ha : Accounted h (t.files + M)) :
    ∃ t' h', closeRest n fd t h = some (t', h') ∧ h'.opened = h.opened ∧ Accounted h' M := by
  induction n generalizing fd t h with
  | zero =>
    have hfiles : t.files = 0 := held_zero fun i hi => by
      rw [hfree i (by omega)]
      rfl
    rw [hfiles, zero_add] at ha
    exact ⟨t, h, rfl, rfl, ha⟩
  | succ n ih =>
    have hfd : fd < maxFds := by omega
    rw [closeRest]
    cases hf : t.fds fd with
    | none =>
      refine ih (by omega) (fun i hi => ?_) ha
      obtain hlt | rfl := Nat.lt_succ_iff_lt_or_eq.1 hi
      · exact hfree i hlt
      · exact hf
    | some f =>
      rw [files_free hfd hf, cons_add] at ha
      obtain ⟨h', hc, ha'⟩ := ha.close
      dsimp only
      rw [hc, bind_some, ← close_opened hc]
      refine ih (by omega) (fun i hi => ?_) ha'
      obtain hlt | rfl := Nat.lt_succ_iff_lt_or_eq.1 hi
      · rw [set_fds_of_ne hlt.ne]
        exact hfree i hlt
      · exact set_fds_self

theorem closeAll_keeps (ha : Accounted h (t.files + M)) :
    ∃ t' h', t.closeAll h = some (t', h') ∧ h'.opened = h.opened ∧ Accounted h' M :=
  closeRest_keeps (zero_add _) (fun i hi => absurd hi (Nat.not_lt_zero i)) ha

end FdTable

/-! ## Runs -/

namespace Files

variable {s s' : Files} {t p : ℕ} {tbl : FdTable} {h : FileHeap} {ev : FilesEvent} {n : ℤ}
  {f : File}

/-- The files of all tables. -/
def all (s : Files) : Multiset File := ∑ t ∈ s.live, (s.table t).files

/-- The files of the other tables. -/
def others (s : Files) (t : ℕ) : Multiset File := ∑ q ∈ s.live.erase t, (s.table q).files

theorem all_eq (ht : t ∈ s.live) : s.all = (s.table t).files + s.others t :=
  (Finset.add_sum_erase _ _ ht).symm

theorem all_set (ht : t ∈ s.live) : (s.set t tbl h).all = tbl.files + s.others t := by
  rw [all_eq (s := s.set t tbl h) ht, set_table_self]
  congr 1
  refine Finset.sum_congr rfl fun q hq => ?_
  rw [set_table_of_ne _ (Finset.ne_of_mem_erase hq)]

theorem all_add (ht : t ∉ s.live) : (s.add t tbl h).all = tbl.files + s.all := by
  rw [all, show (s.add t tbl h).live = insert t s.live from rfl, Finset.sum_insert ht,
    add_table_self]
  congr 1
  refine Finset.sum_congr rfl fun q hq => ?_
  rw [add_table_of_ne _ (ne_of_mem_of_not_mem hq ht)]

section

variable (ha : Accounted s.heap s.all)

include ha

/-- A table is given up, or has a user less. -/
theorem release_keeps (ht : t ∈ s.live) :
    ∃ s', s.release t = some s' ∧ Accounted s'.heap s'.all := by
  rw [all_eq ht] at ha
  rw [release]
  split_ifs
  · obtain ⟨tbl, h, hc, -, ha'⟩ := (s.table t).closeAll_keeps ha
    rw [hc]
    exact ⟨_, rfl, ha'⟩
  · refine ⟨_, rfl, ?_⟩
    rwa [all_set ht]

/-- The files of a table which is given up are closed, once. -/
theorem release_closes (ht : t ∈ s.live) (hs : s.release t = some s') (hgone : t ∉ s'.live)
    (hf : f ∈ (s.table t).files) : s'.heap.closed.count f.id = 1 := by
  rw [all_eq ht] at ha
  rw [release] at hs
  split_ifs at hs
  · obtain ⟨tbl, h, hc, hopened, ha'⟩ := (s.table t).closeAll_keeps ha
    rw [hc] at hs
    cases hs
    -- The number of the file is not one of another file.
    have hids := ha.ids
    have hnodup := nodup_range s.heap.opened
    rw [← hids] at hnodup
    have hmem : f.id ∈ (s.table t).files.map File.id := Multiset.mem_map_of_mem _ hf
    rw [Multiset.map_add] at hids hnodup
    have hother : f.id ∉ (s.others t).map File.id := fun ho =>
      disjoint_left.1 (nodup_add.1 (nodup_add.1 hnodup).1).2.2 hmem ho
    have hrange : f.id ∈ Multiset.range s.heap.opened := hids ▸ mem_add.2
      (.inl (mem_add.2 (.inl hmem)))
    have hcount := congrArg (Multiset.count f.id) ha'.ids
    rw [Multiset.count_add, count_eq_zero.2 hother, zero_add, hopened,
      count_eq_one_of_mem (nodup_range _) hrange, coe_count] at hcount
    exact hcount
  · cases hs
    exact absurd ht hgone

omit ha in
theorem release_live (hs : s.release t = some s') (hp : p ≠ t) : p ∈ s'.live ↔ p ∈ s.live := by
  rw [release] at hs
  split_ifs at hs
  · obtain ⟨r, -, rfl⟩ := map_eq_some_iff.1 hs
    exact Finset.mem_erase.trans (and_iff_right hp)
  · cases hs
    rfl

/-- Every step keeps the account, and none gets stuck for another reason. -/
theorem step_keeps (ev : FilesEvent) :
    (∃ s' n, s.step ev = some (s', n) ∧ Accounted s'.heap s'.all) ∨
      s.step ev = none ∧ s.Barred ev := by
  cases ev with
  | call t c =>
    rw [step]
    split_ifs with ht
    · rw [all_eq ht] at ha
      obtain ⟨hnone, hw⟩ | ⟨tbl, h, n, hc, -, ha'⟩ := (s.table t).call_keeps ha c
      · rw [hnone]
        exact .inr ⟨rfl, fun _ => hw⟩
      · rw [hc]
        refine .inl ⟨_, n, rfl, ?_⟩
        rwa [all_set ht]
    · exact .inr ⟨rfl, fun h => absurd h ht⟩
  | clone t copy =>
    rw [step]
    split_ifs with ht
    · rw [all_eq ht.1] at ha
      obtain ⟨tbl, h, hc, -, ha'⟩ := (s.table t).clone_keeps ha
      rw [hc]
      refine .inl ⟨_, 0, rfl, ?_⟩
      rwa [all_add ht.2, all_eq ht.1]
    · exact .inr ⟨rfl, ht⟩
  | acquire t =>
    rw [step]
    split_ifs with ht
    · refine .inl ⟨_, 0, rfl, ?_⟩
      rw [all_eq ht] at ha
      rwa [all_set ht]
    · exact .inr ⟨rfl, ht⟩
  | release t =>
    rw [step]
    split_ifs with ht
    · obtain ⟨s', hs', ha'⟩ := release_keeps ha ht
      rw [hs']
      exact .inl ⟨s', 0, rfl, ha'⟩
    · exact .inr ⟨rfl, ht⟩

theorem accounted_of_step (hs : s.step ev = some (s', n)) : Accounted s'.heap s'.all := by
  obtain ⟨s1, n1, hs1, ha1⟩ | ⟨hnone, -⟩ := step_keeps ha ev
  · rw [hs1] at hs
    cases hs
    exact ha1
  · rw [hnone] at hs
    cases hs

theorem step_closes (hs : s.step ev = some (s', n)) (hp : p ∈ s.live) (hgone : p ∉ s'.live)
    (hf : f ∈ (s.table p).files) : s'.heap.closed.count f.id = 1 := by
  cases ev with
  | call t c =>
    rw [step] at hs
    split_ifs at hs
    obtain ⟨r, -, ⟨⟩⟩ := map_eq_some_iff.1 hs
    exact absurd hp hgone
  | clone t copy =>
    rw [step] at hs
    split_ifs at hs
    obtain ⟨r, -, ⟨⟩⟩ := map_eq_some_iff.1 hs
    exact absurd (Finset.mem_insert_of_mem hp) hgone
  | acquire t =>
    rw [step] at hs
    split_ifs at hs
    cases hs
    exact absurd hp hgone
  | release t =>
    rw [step] at hs
    split_ifs at hs
    obtain ⟨s1, hs1, ⟨⟩⟩ := map_eq_some_iff.1 hs
    by_cases hpt : p = t
    · rw [hpt] at hp hgone hf
      exact release_closes ha hp hs1 hgone hf
    · exact absurd ((release_live hs1 hpt).2 hp) hgone

end

theorem start_all (logBlockSize : ℕ) (regular : ℕ → RegularFile) : (start logBlockSize regular).all =
    {⟨2, .terminal, oRdwr, 0⟩, ⟨1, .terminal, oRdwr, 0⟩, ⟨0, .terminal, oRdwr, 0⟩} := by
  rw [all, start, Finset.sum_singleton, FdTable.files_fill (by decide) (by decide),
    FdTable.files_fill (by decide) (by decide), FdTable.files_fill (by decide) (by decide),
    FdTable.new_files]
  rfl

theorem start_accounted (logBlockSize : ℕ) (regular : ℕ → RegularFile) :
    Accounted (start logBlockSize regular).heap (start logBlockSize regular).all := by
  rw [start_all]
  refine ⟨fun _ _ hp => absurd hp.symm (some_ne_none _),
    fun _ _ hp => absurd hp.symm (some_ne_none _), fun p _ f hf => ?_, fun _ _ => rfl,
    List.nodup_nil, fun p => ?_, ?_⟩
  · simp only [insert_eq_cons, mem_cons, mem_singleton] at hf
    obtain rfl | rfl | rfl := hf <;> exact Inode.noConfusion
  · simp [start]
  · show _ + ((([] : List ℕ)) : Multiset ℕ) = Multiset.range 3
    decide

/-- In every run: the counters of a pipe are the numbers of the files which are its ends, of which
    there are some; the pipes which were deleted, once each, are those without ends; every file is in
    one slot of one table or was closed, once; and nothing gets stuck which the kernel may be asked
    for. -/
theorem reachable_ends (logBlockSize : ℕ) (regular : ℕ → RegularFile)
    (hrun : Reaches (fun s : Files => s.step) (fun _ _ => True) (start logBlockSize regular) s) :
    (∀ p pipe, s.heap.pipes p = some pipe → pipe.readers = s.all.countP (File.End p false) ∧
      pipe.writers = s.all.countP (File.End p true) ∧ ¬ (pipe.readers = 0 ∧ pipe.writers = 0)) ∧
    s.heap.deleted.Nodup ∧
    (∀ p, p ∈ s.heap.deleted ↔ p < s.heap.made ∧ s.heap.pipes p = none) ∧
    (∀ p, p ∈ s.heap.deleted ↔ p < s.heap.made ∧ ∀ f ∈ s.all, f.inode ≠ .pipe p) ∧
    s.all.map File.id + s.heap.closed = Multiset.range s.heap.opened ∧
    ∀ ev, s.step ev = none → s.Barred ev := by
  have ha : Accounted s.heap s.all := hrun.inv (I := fun s => Accounted s.heap s.all)
    (fun _ _ _ _ hI _ hs => accounted_of_step hI hs) (start_accounted logBlockSize regular)
  refine ⟨fun p pipe hp => ⟨ha.ends p pipe hp false, ha.ends p pipe hp true, ha.used p pipe hp⟩,
    ha.nodup, ha.deleted, fun p => ?_, ha.ids, fun ev hev => ?_⟩
  · rw [ha.deleted, (ha.fits p).2, Accounted.countP_end]
  · obtain ⟨s', n, hs', -⟩ | ⟨-, hb⟩ := step_keeps ha ev
    · rw [hs'] at hev
      cases hev
    · exact hb

/-- A pipe, whose end for writing is duplicated, in a process which is forked. -/
def forked : Files :=
  lastState (guarded (fun s : Files => s.step) fun _ _ => True) (start 0 fun _ => ⟨fun _ => 0, 0⟩)
    [.call 0 (.pipe2 (fun _ => 0) true), .call 0 (.dup 4), .clone 0 1, .call 0 (.close 3)]

/-- It has a reader and four writers. -/
theorem reachable_ends_forked : ((forked.heap.pipes 0).map fun pipe => (pipe.readers, pipe.writers)) =
      some (1, 4) ∧
    ∀ p pipe, forked.heap.pipes p = some pipe → pipe.writers = forked.all.countP (File.End p true) :=
  ⟨by decide +kernel, fun p pipe hp =>
    ((reachable_ends 0 (fun _ => ⟨fun _ => 0, 0⟩) (Reaches.lastState _ _)).1 p pipe hp).2.1⟩

end Files

end HobbyOS
