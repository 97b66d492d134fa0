/-
# Names there and back

`filename_to_fcb` turns a host name into the eleven bytes of an FCB name and `host_name` turns them
back. The encoder cuts the base after eight characters and the extension after three, and takes
whatever follows eight characters of base for the extension; the decoder cuts trailing blanks and,
through `read_fcb_name`, the high bit of every byte.

`host_name_filename_to_fcb_iff` says which host names survive: those an FCB can spell, `Canonical`.
-/
import Cpm8000.Host.File

namespace Cpm8000.Host

open Cpm8000.Sys

/-! ## 1. Characters -/

theorem toupper_toupper (c : Byte) : toupper (toupper c) = toupper c := by
  revert c
  decide

theorem toupper_strip (c : Byte) (h : c < 0x80) : toupper c &&& 0x7f = toupper c := by
  revert c
  decide

theorem toupper_lt_iff (c : Byte) : toupper c < 0x80 ↔ c < 0x80 := by
  revert c
  decide

theorem toupper_strip_lt (c : Byte) : toupper (c &&& 0x7f) < 0x80 := by
  revert c
  decide

/-- The characters that stand for themselves only. -/
theorem toupper_eq_iff (c : Byte) : (toupper c = 0x20 ↔ c = 0x20) ∧ (toupper c = 0x2e ↔ c = 0x2e) ∧
    (toupper c = 0 ↔ c = 0) := by
  revert c
  decide

theorem map_toupper_toupper (l : List Byte) : (l.map toupper).map toupper = l.map toupper := by
  rw [List.map_map]
  exact List.map_congr_left fun c _ => toupper_toupper c

/-! ## 2. Fields -/

theorem length_fcb_field (l : List Byte) (n : ℕ) : (fcb_field l n).length = n := by
  simp only [fcb_field, List.length_append, List.length_map, List.length_take,
    List.length_replicate]
  omega

theorem length_filename_to_fcb (name : Str) : (filename_to_fcb name).length = 11 := by
  unfold filename_to_fcb
  split_ifs
  · exact List.length_replicate
  · rw [List.length_append, length_fcb_field, length_fcb_field]

/-- The blanks a field is filled with are the blanks that are cut. -/
theorem trim_append_blanks (l : List Byte) (n : ℕ) :
    trim (l ++ List.replicate n 0x20) = trim l := by
  induction n with
  | zero => rw [List.replicate_zero, List.append_nil]
  | succ n ih =>
    rw [List.replicate_succ', ← List.append_assoc, trim, List.rdropWhile_concat_pos _ _ _ (by decide)]
    exact ih

theorem trim_eq_self_iff (l : List Byte) : trim l = l ↔ l.getLast? ≠ some 0x20 := by
  rw [trim, List.rdropWhile_eq_self_iff]
  constructor
  · intro h hlast
    obtain ⟨hl, he⟩ := List.getLast?_eq_some_iff.mp hlast |>.elim fun ys hys =>
      (⟨by rw [hys]; simp, by simp [hys]⟩ : ∃ hl : l ≠ [], l.getLast hl = 0x20)
    exact h hl (by simpa using he)
  · intro h hl hlast
    refine h ?_
    rw [List.getLast?_eq_some_getLast hl]
    simpa using hlast

theorem length_trim_le (l : List Byte) : (trim l).length ≤ l.length :=
  (List.rdropWhile_prefix _ l).length_le

theorem mem_of_mem_trim {l : List Byte} {c : Byte} (h : c ∈ trim l) : c ∈ l :=
  (List.rdropWhile_prefix _ l).subset h

theorem cstr_of_notMem {l : List Byte} (h : 0 ∉ l) : cstr l = l := by
  rw [cstr, List.takeWhile_eq_self_iff]
  intro c hc
  simpa using ne_of_mem_of_not_mem hc h

theorem map_eq_self {f : Byte → Byte} {l : List Byte} (h : ∀ c ∈ l, f c = c) : l.map f = l :=
  (List.map_congr_left h).trans (List.map_id' l)

/-- A field of bytes without high bit and end mark, written and read back. -/
theorem read_field {l : List Byte} (n : ℕ) (h7 : ∀ c ∈ l, c < 0x80) (h0 : 0 ∉ l) :
    trim ((fcb_field l n).map (· &&& 0x7f)) = trim ((l.take n).map toupper) ∧
      cstr ((trim ((l.take n).map toupper)).map toupper) = trim ((l.take n).map toupper) := by
  have hstrip : (fcb_field l n).map (· &&& 0x7f) = fcb_field l n := by
    refine map_eq_self fun c hc => ?_
    rcases List.mem_append.mp hc with hc | hc
    · obtain ⟨d, hd, rfl⟩ := List.mem_map.mp hc
      exact toupper_strip d (h7 d (List.mem_of_mem_take hd))
    · rw [List.eq_of_mem_replicate hc]
      rfl
  have hup : (trim ((l.take n).map toupper)).map toupper = trim ((l.take n).map toupper) := by
    refine map_eq_self fun c hc => ?_
    obtain ⟨d, -, rfl⟩ := List.mem_map.mp (mem_of_mem_trim hc)
    exact toupper_toupper d
  refine ⟨?_, ?_⟩
  · rw [hstrip]
    exact trim_append_blanks _ _
  · rw [hup]
    refine cstr_of_notMem fun hmem => ?_
    obtain ⟨c, hc, hzero⟩ := List.mem_map.mp (mem_of_mem_trim hmem)
    rw [(toupper_eq_iff c).2.2] at hzero
    exact h0 (hzero ▸ List.mem_of_mem_take hc)

/-! ## 3. Base and extension -/

/-- What the encoder takes for the base. -/
def fcb_base (name : Str) : List Byte := (name.take 8).takeWhile fun c => c ≠ 0x2e

/-- What the encoder finds after the base. -/
def fcb_rest (name : Str) : List Byte := name.drop (fcb_base name).length

/-- What the encoder takes for the extension, before it cuts. -/
def fcb_ext (name : Str) : List Byte :=
  if (fcb_rest name).head? = some 0x2e then (fcb_rest name).drop 1 else fcb_rest name

theorem fcb_base_append_rest (name : Str) : fcb_base name ++ fcb_rest name = name := by
  have hpre : fcb_base name <+: name := (List.takeWhile_prefix _).trans (List.take_prefix 8 name)
  obtain ⟨t, ht⟩ := hpre
  have hdrop := congrArg (List.drop (fcb_base name).length) ht
  rw [List.drop_left] at hdrop
  rw [fcb_rest, ← hdrop, ht]

theorem length_fcb_base_le (name : Str) : (fcb_base name).length ≤ 8 := by
  have hle := (List.takeWhile_prefix (fun c : Byte => decide (c ≠ 0x2e)) (l := name.take 8)).length_le
  rw [List.length_take] at hle
  exact hle.trans (min_le_left _ _)

theorem dot_notMem_fcb_base (name : Str) : 0x2e ∉ fcb_base name := by
  intro hmem
  simpa using List.mem_takeWhile_imp hmem

/-- Where the base ends: at the end of the name, at a dot, or after eight characters. -/
theorem fcb_rest_cases (name : Str) : fcb_rest name = [] ∨ (∃ q, fcb_rest name = 0x2e :: q) ∨
    (fcb_base name).length = 8 := by
  have happ : fcb_base name ++ (name.take 8).dropWhile (fun c => c ≠ 0x2e) = name.take 8 :=
    List.takeWhile_append_dropWhile
  have hname := fcb_base_append_rest name
  cases hd : (name.take 8).dropWhile (fun c => decide (c ≠ 0x2e)) with
  | nil =>
    rw [hd, List.append_nil] at happ
    by_cases hlen : name.length < 8
    · rw [List.take_of_length_le hlen.le] at happ
      rw [happ] at hname
      exact .inl (List.append_right_eq_self.mp hname)
    · refine .inr (.inr ?_)
      rw [happ, List.length_take]
      omega
  | cons c q =>
    have hc : c = 0x2e := by
      have hhead := List.head?_dropWhile_not (fun c : Byte => decide (c ≠ 0x2e)) (name.take 8)
      rw [hd] at hhead
      simpa using hhead
    rw [hd] at happ
    have hfull : fcb_base name ++ (c :: (q ++ name.drop 8)) = fcb_base name ++ fcb_rest name := by
      rw [hname, ← List.cons_append, ← List.append_assoc, happ, List.take_append_drop]
    rw [← List.append_cancel_left hfull, hc]
    exact .inr (.inl ⟨_, rfl⟩)

/-- **The name that comes back**, for a name without high bits. -/
theorem host_name_filename_to_fcb {name : Str} (h7 : ∀ c ∈ name, c < 0x80) (h0 : 0 ∉ name)
    (hdot : name.head? ≠ some 0x2e) :
    host_name ((filename_to_fcb name).map (· &&& 0x7f)) =
      trim ((fcb_base name).map toupper) ++
        if trim (((fcb_ext name).take 3).map toupper) = [] then []
        else 0x2e :: trim (((fcb_ext name).take 3).map toupper) := by
  have hsub : ∀ c ∈ fcb_base name, c ∈ name := fun c hc => by
    rw [← fcb_base_append_rest name]
    exact List.mem_append_left _ hc
  have hext : ∀ c ∈ fcb_ext name, c ∈ name := fun c hc => by
    rw [← fcb_base_append_rest name]
    refine List.mem_append_right _ ?_
    unfold fcb_ext at hc
    split_ifs at hc
    · exact List.mem_of_mem_drop hc
    · exact hc
  have hb := read_field 8 (fun c hc => h7 c (hsub c hc)) (fun hc => h0 (hsub 0 hc))
  have he := read_field 3 (fun c hc => h7 c (hext c hc)) (fun hc => h0 (hext 0 hc))
  rw [List.take_of_length_le (length_fcb_base_le name)] at hb
  have hfcb : filename_to_fcb name = fcb_field (fcb_base name) 8 ++ fcb_field (fcb_ext name) 3 := by
    unfold filename_to_fcb
    rw [if_neg hdot]
    rfl
  have hlen : ((fcb_field (fcb_base name) 8).map (· &&& 0x7f)).length = 8 := by
    rw [List.length_map, length_fcb_field]
  have hlen3 : ((fcb_field (fcb_ext name) 3).map (· &&& 0x7f)).length = 3 := by
    rw [List.length_map, length_fcb_field]
  unfold host_name
  dsimp only
  rw [hfcb, List.map_append, List.take_left' hlen, slice, List.drop_left' hlen,
    List.take_of_length_le hlen3.le, hb.1, hb.2, he.1, he.2]
  simp only [gt_iff_lt, List.length_pos_iff, ne_eq, ite_not]

/-! ## 4. The names an FCB can spell -/

/-- Eight characters and three: a base without dots, an extension or none, no blank at the end of
either and no high bit. -/
def Canonical (name : Str) : Prop :=
  ∃ base ext, name = base ++ (if ext = [] then [] else 0x2e :: ext) ∧
    base.length ≤ 8 ∧ 0x2e ∉ base ∧ base.getLast? ≠ some 0x20 ∧
    ext.length ≤ 3 ∧ ext.getLast? ≠ some 0x20 ∧ ∀ c ∈ name, c < 0x80

theorem trim_map_toupper_iff (l : List Byte) :
    trim (l.map toupper) = l.map toupper ↔ l.getLast? ≠ some 0x20 := by
  rw [trim_eq_self_iff, List.getLast?_map]
  cases l.getLast? with
  | none => simp
  | some c =>
    rw [Option.map_some, Ne, Ne, Option.some.injEq, Option.some.injEq, (toupper_eq_iff c).1]

theorem eq_of_trim_length {l : List Byte} (h : l.length ≤ (trim l).length) : trim l = l :=
  (List.rdropWhile_prefix _ l).eq_of_length_le h

/-- No byte that is read from an FCB has its high bit set. -/
theorem host_name_lt (l : List Byte) :
    ∀ c ∈ (host_name (l.map (· &&& 0x7f))).map toupper, c < 0x80 := by
  have hfield : ∀ m : List Byte, (∀ c ∈ m, ∃ d : Byte, c = d &&& 0x7f) →
      ∀ c ∈ cstr ((trim m).map toupper), c < 0x80 := by
    intro m hm c hc
    obtain ⟨d, hd, rfl⟩ := List.mem_map.mp ((List.takeWhile_prefix _).subset hc)
    obtain ⟨e, rfl⟩ := hm d (mem_of_mem_trim hd)
    exact toupper_strip_lt e
  have hmem : ∀ c ∈ l.map (· &&& 0x7f), ∃ d : Byte, c = d &&& 0x7f := fun c hc => by
    obtain ⟨d, -, rfl⟩ := List.mem_map.mp hc
    exact ⟨d, rfl⟩
  intro c hc
  obtain ⟨d, hd, rfl⟩ := List.mem_map.mp hc
  rw [toupper_lt_iff]
  unfold host_name at hd
  rcases List.mem_append.mp hd with hd | hd
  · exact hfield _ (fun c hc => hmem c (List.mem_of_mem_take hc)) d hd
  · split_ifs at hd
    · rcases List.mem_cons.mp hd with rfl | hd
      · decide
      · exact hfield _ (fun c hc => hmem c (List.mem_of_mem_drop (List.mem_of_mem_take hc))) d hd
    · cases hd

/-- What the encoder makes of a canonical name. -/
theorem fcb_parts_of_canonical {base : List Byte} (ext : List Byte) (hb : base.length ≤ 8) (hdot : 0x2e ∉ base) :
    fcb_base (base ++ if ext = [] then [] else 0x2e :: ext) = base ∧
      fcb_ext (base ++ if ext = [] then [] else 0x2e :: ext) = ext := by
  have hbase : fcb_base (base ++ if ext = [] then [] else 0x2e :: ext) = base := by
    rw [fcb_base, List.take_append, List.take_of_length_le hb, List.takeWhile_append_of_pos]
    · split_ifs with he
      · simp
      · cases 8 - base.length <;> simp
    · intro c hc
      simpa using ne_of_mem_of_not_mem hc hdot
  refine ⟨hbase, ?_⟩
  unfold fcb_ext fcb_rest
  rw [hbase, List.drop_left]
  split_ifs with he hh hh
  · rw [he]
    rfl
  · exact he.symm
  · rfl
  · simp at hh

/-- **The names that come back**: up to the case of their letters, those an FCB can spell. -/
theorem host_name_filename_to_fcb_iff {name : Str} (h0 : 0 ∉ name)
    (hdot : name.head? ≠ some 0x2e) :
    (host_name ((filename_to_fcb name).map (· &&& 0x7f))).map toupper = name.map toupper ↔
      Canonical name := by
  by_cases h7 : ∀ c ∈ name, c < 0x80
  swap
  · constructor
    · intro h
      refine absurd (fun c hc => ?_) h7
      rw [← toupper_lt_iff]
      refine host_name_lt (filename_to_fcb name) _ ?_
      rw [h]
      exact List.mem_map_of_mem hc
    · rintro ⟨base, ext, -, -, -, -, -, -, h⟩
      exact absurd h h7
  have hup (l : List Byte) : (trim (l.map toupper)).map toupper = trim (l.map toupper) := by
    refine map_eq_self fun c hc => ?_
    obtain ⟨d, -, rfl⟩ := List.mem_map.mp (mem_of_mem_trim hc)
    exact toupper_toupper d
  have hback : (host_name ((filename_to_fcb name).map (· &&& 0x7f))).map toupper =
      trim ((fcb_base name).map toupper) ++
        if trim (((fcb_ext name).take 3).map toupper) = [] then []
        else 0x2e :: trim (((fcb_ext name).take 3).map toupper) := by
    rw [host_name_filename_to_fcb h7 h0 hdot, List.map_append, hup]
    split_ifs
    · rfl
    · rw [List.map_cons, hup]
      rfl
  rw [hback]
  constructor
  · intro h
    -- both sides are as long, so neither field lost a character
    have hlen := congrArg List.length h
    have hname := fcb_base_append_rest name
    have hlb := length_trim_le ((fcb_base name).map toupper)
    have hle := length_trim_le (((fcb_ext name).take 3).map toupper)
    rw [List.length_map] at hlb hle
    rw [List.length_take] at hle
    cases hr : fcb_rest name with
    | nil =>
      have hext : fcb_ext name = [] := by
        unfold fcb_ext
        rw [hr]
        rfl
      rw [hr, List.append_nil] at hname
      rw [hext, List.take_nil, List.map_nil, if_pos (by rfl), List.append_nil, hname,
        trim_map_toupper_iff] at h
      refine ⟨name, [], (List.append_nil name).symm, ?_, ?_, h, by simp, by simp, h7⟩
      · rw [← hname]
        exact length_fcb_base_le name
      · rw [← hname]
        exact dot_notMem_fcb_base name
    | cons c q =>
      rw [hr] at hname
      have hlen' := congrArg List.length hname
      rw [List.length_append, List.length_cons] at hlen'
      rw [List.length_append, List.length_map, ← hlen'] at hlen
      by_cases hc : c = 0x2e
      · have hext : fcb_ext name = q := by
          unfold fcb_ext
          rw [hr, hc]
          rfl
        rw [hext] at hlen hle
        split_ifs at hlen with hnil
        · rw [List.length_nil] at hlen
          omega
        · rw [List.length_cons] at hlen
          have hq3 : q.length ≤ 3 := by omega
          rw [List.take_of_length_le hq3] at hlen hnil hle
          have hq : q ≠ [] := by
            rintro rfl
            exact hnil rfl
          refine ⟨fcb_base name, q, ?_, length_fcb_base_le name, dot_notMem_fcb_base name, ?_, hq3, ?_,
            h7⟩
          · rw [if_neg hq, ← hc, hname]
          · rw [← trim_map_toupper_iff]
            refine eq_of_trim_length ?_
            rw [List.length_map]
            omega
          · rw [← trim_map_toupper_iff]
            refine eq_of_trim_length ?_
            rw [List.length_map]
            omega
      · -- the dot the decoder puts in stands where the name has another character
        exfalso
        have h8 : (fcb_base name).length = 8 := by
          rcases fcb_rest_cases name with h1 | ⟨q', h2⟩ | h3
          · rw [hr] at h1
            cases h1
          · rw [hr] at h2
            exact absurd (List.cons.inj h2).1 hc
          · exact h3
        have hext : fcb_ext name = c :: q := by
          unfold fcb_ext
          rw [hr, List.head?_cons, if_neg (by simpa using hc)]
        rw [hext] at hlen hle h
        rw [List.length_cons] at hle
        split_ifs at hlen with hnil
        · rw [List.length_nil] at hlen
          omega
        · rw [if_neg hnil] at h
          rw [List.length_cons] at hlen
          have hat := congrArg (fun l => l[(trim ((fcb_base name).map toupper)).length]?) h
          simp only [List.getElem?_append_right (Nat.le_refl _), Nat.sub_self, List.getElem?_cons_zero,
            List.getElem?_map] at hat
          generalize (trim ((fcb_base name).map toupper)).length = k at hat hlen hlb
          rw [← congrArg (fun l => l[k]?) hname] at hat
          rcases Nat.lt_or_ge k 8 with h7' | h8'
          · rw [List.getElem?_append_left (by omega), eq_comm, Option.map_eq_some_iff] at hat
            obtain ⟨d, hd, hdot'⟩ := hat
            rw [(toupper_eq_iff d).2.1] at hdot'
            exact dot_notMem_fcb_base name (hdot' ▸ List.mem_of_getElem? hd)
          · obtain rfl : k = (fcb_base name).length := by omega
            rw [List.getElem?_append_right (Nat.le_refl _), Nat.sub_self, List.getElem?_cons_zero,
              Option.map_some, Option.some.injEq, eq_comm, (toupper_eq_iff c).2.1] at hat
            exact hc hat
  · rintro ⟨base, ext, rfl, hb, hbdot, hlast, he, helast, -⟩
    obtain ⟨h1, h2⟩ := fcb_parts_of_canonical ext hb hbdot
    rw [h1, h2, (trim_map_toupper_iff base).mpr hlast, List.take_of_length_le he,
      (trim_map_toupper_iff ext).mpr helast, List.map_append]
    split_ifs with h3 h4 h4
    · rfl
    · simp_all
    · simp_all
    · rfl

end Cpm8000.Host
