/-
# The BDOS router

`BdosRouter::route` looks at every system call before the native BDOS does. What concerns a drive
that is a host directory it hands to `CpmFileSystem` or to the loader, and the rest to the native
BDOS, which has the disk images and the console.

A search is continued on the backend it was begun on only as long as no search of an image drive
follows one of a host directory: `continuous_iff`, over every run of calls.
-/
import Cpm8000.Host.Loader
import Cpm8000.Host.Search

namespace Cpm8000.Host

open Cpm8000.Sys

/-! ## 1. Drives -/

inductive DriveBackend
  | none
  | host_dir
  | image
  deriving DecidableEq

/-- What a machine is set up with: its drive table, its loader, and the disk tables of its BIOS.
`read_console_line` is the console input of function 10, which nothing here looks into. -/
structure Machine where
  s_drives : Fin 16 → DriveBackend
  addressing : LoaderAddressing
  m_system_tag : BitVec 16
  s_alv_offset : Fin 16 → BitVec 16
  s_dpb_offset : Fin 16 → BitVec 16
  s_drive_total_recs : Fin 16 → BitVec 32
  read_console_line : BitVec 32 → HostedMemory → HostedMemory

namespace Machine

variable (env : Machine)

def drive_backend (idx : ℕ) : DriveBackend := if h : idx < 16 then env.s_drives ⟨idx, h⟩ else .none

def drive_is_host (idx : ℕ) : Bool := env.drive_backend idx = .host_dir

def drive_present (idx : ℕ) : Bool := env.drive_backend idx ≠ .none

def drive_login_vector : BitVec 16 :=
  (List.range 16).foldl (fun v i => if env.drive_present i then v ||| 1 <<< i else v) 0

def bios_alv_offset (drive : ℕ) : BitVec 16 := if h : drive < 16 then env.s_alv_offset ⟨drive, h⟩ else 0

def bios_dpb_offset (drive : ℕ) : BitVec 16 := if h : drive < 16 then env.s_dpb_offset ⟨drive, h⟩ else 0

def bios_drive_total_recs (drive : ℕ) : BitVec 32 :=
  if h : drive < 16 then env.s_drive_total_recs ⟨drive, h⟩ else 0

theorem lt_of_drive_is_host {idx : ℕ} (h : env.drive_is_host idx) : idx < 16 := by
  unfold drive_is_host drive_backend at h
  by_contra hge
  rw [dif_neg hge] at h
  cases h

end Machine

/-- The drive of an FCB, for the router. -/
def fcb_drive (mem : HostedMemory) (tag fcb_off : BitVec 16) (fs : CpmFileSystem) : ℕ :=
  let raw := mem.read_byte (tagged tag fcb_off)
  if raw = 0x3f then fs.m_current_drive
  else
    let d := raw &&& 0x1f
    if d ≠ 0 then d.toNat - 1 else fs.m_current_drive

/-! ## 2. The router -/

/-- The registers of a call: the function number in `r5`, its parameter in `rr6`. -/
structure Call where
  caller_tag : BitVec 16
  func : BitVec 16
  param_hi : BitVec 16
  param_lo : BitVec 16

/-- `m_default_drive` is a member of `CpmFileSystem` that only function 13 reads. -/
structure BdosRouter where
  m_fs : CpmFileSystem
  m_default_drive : ℕ
  m_last_search_host : Bool
  m_chain_pending : Bool

/-- The inner `switch` of the FCB functions; `F_ATTRIB` is a stub. -/
def fcb_op (func : ℕ) (fs : CpmFileSystem) (fcb_addr : BitVec 16) : CpmFileSystem × ℕ :=
  match func with
  | 15 => fs.file_open fcb_addr
  | 16 => fs.file_close fcb_addr
  | 17 => fs.file_search_first fcb_addr
  | 19 => fs.file_delete fcb_addr
  | 20 => fs.file_read_seq fcb_addr
  | 21 => fs.file_write_seq fcb_addr
  | 22 => fs.file_make fcb_addr
  | 23 => fs.file_rename fcb_addr
  | 30 => (fs, 0)
  | 33 => fs.file_read_rand fcb_addr
  | 34 => fs.file_write_rand fcb_addr
  | 35 => fs.file_size fcb_addr
  | 36 => fs.file_set_random fcb_addr
  | 40 => fs.file_write_rand_zf fcb_addr
  | _ => (fs, 0)

namespace BdosRouter

/-- A handled call: the state after, and the result in `rr6`. -/
def handled (rt : BdosRouter) (r : CpmFileSystem × ℕ) : BdosRouter × Option (BitVec 32) :=
  ({ rt with m_fs := r.1 }, some (tagged 0 (BitVec.ofNat 16 r.2)))

/-- `DRV_SET` -/
def route_select (env : Machine) (rt : BdosRouter) (drv : ℕ) : BdosRouter × Option (BitVec 32) :=
  let fs := { rt.m_fs with m_current_drive := drv }
  if env.drive_is_host drv then rt.handled (fs, 0) else ({ rt with m_fs := fs }, none)

/-- `DRV_ALLOCVEC` and `DRV_DPB`, by the table they look in. -/
def route_table (env : Machine) (rt : BdosRouter) (table : ℕ → BitVec 16) :
    BdosRouter × Option (BitVec 32) :=
  let off := table rt.m_fs.m_current_drive
  if env.drive_is_host rt.m_fs.m_current_drive then
    (rt, some (tagged (if off ≠ 0 then env.m_system_tag else 0) off))
  else (rt, none)

/-- The FCB file operations, routed by the FCB's drive. -/
def route_fcb (env : Machine) (rt : BdosRouter) (func : ℕ) (caller_tag fcb_addr : BitVec 16) :
    BdosRouter × Option (BitVec 32) :=
  if env.drive_is_host (fcb_drive rt.m_fs.m_mem caller_tag fcb_addr rt.m_fs) then
    let rt := if func = 17 then { rt with m_last_search_host := true } else rt
    rt.handled (fcb_op func rt.m_fs fcb_addr)
  else (rt, none)

/-- `DRV_FREESPACE` -/
def route_freespace (env : Machine) (rt : BdosRouter) (drv : ℕ) : BdosRouter × Option (BitVec 32) :=
  let m_mem := put_freespace rt.m_fs.m_dma_addr (env.bios_drive_total_recs drv) rt.m_fs.m_mem
  if env.drive_is_host drv then rt.handled ({ rt.m_fs with m_mem := m_mem }, 0) else (rt, none)

/-- `PGMLD`, routed by the drive of the program file. -/
def route_pgmld (env : Machine) (rt : BdosRouter) (caller_tag lpb_offset : BitVec 16) :
    BdosRouter × Option (BitVec 32) :=
  let lpb := tagged caller_tag lpb_offset
  let fcb_tag := rt.m_fs.m_mem.read_word (lpb + 0)
  let fcb_off := rt.m_fs.m_mem.read_word (lpb + 2)
  if env.drive_is_host (fcb_drive rt.m_fs.m_mem fcb_tag fcb_off rt.m_fs) then
    rt.handled (bdos_pgmld rt.m_fs caller_tag lpb_offset env.addressing)
  else (rt, none)

/-- One call: the state after, and `rr6` where the call is handled here; a call that is not goes on to
the native BDOS. -/
def route (env : Machine) (rt : BdosRouter) (c : Call) : BdosRouter × Option (BitVec 32) :=
  let rt := { rt with m_fs := { rt.m_fs with m_caller_tag := c.caller_tag } }
  match c.func.toNat with
  | 10 =>
    let m_mem := env.read_console_line (tagged c.caller_tag c.param_lo) rt.m_fs.m_mem
    rt.handled ({ rt.m_fs with m_mem := m_mem }, 0)
  | 13 => ({ rt with m_fs := { rt.m_fs with m_current_drive := rt.m_default_drive } }, none)
  | 37 => (rt, none)
  | 14 => rt.route_select env (c.param_lo &&& 0x0f).toNat
  | 25 => rt.handled (rt.m_fs, rt.m_fs.m_current_drive)
  | 24 => rt.handled (rt.m_fs, env.drive_login_vector.toNat)
  | 27 => rt.route_table env env.bios_alv_offset
  | 31 => rt.route_table env env.bios_dpb_offset
  | 26 => ({ rt with m_fs := { rt.m_fs with m_dma_addr := tagged c.param_hi c.param_lo } }, none)
  | 15 | 16 | 17 | 19 | 20 | 21 | 22 | 23 | 30 | 33 | 34 | 35 | 36 | 40 =>
    rt.route_fcb env c.func.toNat c.caller_tag c.param_lo
  | 46 => rt.route_freespace env (c.param_lo &&& 0x0f).toNat
  | 18 => if rt.m_last_search_host then rt.handled rt.m_fs.file_search_next else (rt, none)
  | 59 => rt.route_pgmld env c.caller_tag c.param_lo
  | 47 => ({ rt with m_chain_pending := true }, none)
  | _ => (rt, none)

/-! ## 3. The backend of a search -/

variable {env : Machine} {rt : BdosRouter} {c : Call}

/-- The drive of the call's FCB is a host directory. -/
def host_call (env : Machine) (rt : BdosRouter) (c : Call) : Bool :=
  env.drive_is_host (fcb_drive rt.m_fs.m_mem c.caller_tag c.param_lo rt.m_fs)

/-- `F_SFIRST` goes to the host file system when its drive is a host directory. -/
theorem route_first (hf : c.func.toNat = 17) : (rt.route env c).2.isSome = host_call env rt c := by
  unfold route route_fcb host_call
  simp only [hf]
  have hdrive : fcb_drive rt.m_fs.m_mem c.caller_tag c.param_lo
      { rt.m_fs with m_caller_tag := c.caller_tag } =
        fcb_drive rt.m_fs.m_mem c.caller_tag c.param_lo rt.m_fs := rfl
  rw [hdrive]
  split_ifs with h
  · exact h.symm
  · simpa using h

/-- `F_SNEXT` goes where the flag says. -/
theorem route_next (hf : c.func.toNat = 18) : (rt.route env c).2.isSome = rt.m_last_search_host := by
  unfold route
  simp only [hf]
  split_ifs with h
  · exact h.symm
  · simpa using h

theorem route_fcb_flag (func : ℕ) (caller_tag fcb_addr : BitVec 16) :
    (rt.route_fcb env func caller_tag fcb_addr).1.m_last_search_host =
      (rt.m_last_search_host || (decide (func = 17) &&
        env.drive_is_host (fcb_drive rt.m_fs.m_mem caller_tag fcb_addr rt.m_fs))) := by
  unfold route_fcb
  by_cases hf : func = 17 <;> split_ifs with h <;> simp [handled, hf, h]

theorem route_select_flag (drv : ℕ) :
    (rt.route_select env drv).1.m_last_search_host = rt.m_last_search_host := by
  unfold route_select
  split_ifs <;> rfl

theorem route_table_flag (table : ℕ → BitVec 16) :
    (rt.route_table env table).1.m_last_search_host = rt.m_last_search_host := by
  unfold route_table
  split_ifs <;> rfl

theorem route_freespace_flag (drv : ℕ) :
    (rt.route_freespace env drv).1.m_last_search_host = rt.m_last_search_host := by
  unfold route_freespace
  split_ifs <;> rfl

theorem route_pgmld_flag (caller_tag lpb_offset : BitVec 16) :
    (rt.route_pgmld env caller_tag lpb_offset).1.m_last_search_host = rt.m_last_search_host := by
  unfold route_pgmld
  dsimp only
  split_ifs <;> rfl

/-- **The flag of a search is only ever set**: by a `F_SFIRST` on a host directory. -/
theorem route_flag : (rt.route env c).1.m_last_search_host =
    (rt.m_last_search_host || (decide (c.func.toNat = 17) && host_call env rt c)) := by
  by_cases hf : c.func.toNat = 17
  · unfold route
    simp only [hf]
    exact route_fcb_flag 17 c.caller_tag c.param_lo
  · rw [decide_eq_false hf, Bool.false_and, Bool.or_false]
    unfold route
    dsimp only
    split
    all_goals first
      | rw [route_select_flag]
      | rw [route_table_flag]
      | rw [route_freespace_flag]
      | rw [route_pgmld_flag]
      | rw [route_fcb_flag, decide_eq_false hf, Bool.false_and, Bool.or_false]
      | (split_ifs <;> rfl)
      | rfl

/-- What happens in a run: a call, or anything else. What a program, the native BDOS or a warm boot
does may change all of the file system and its memory, but not the router's flags. -/
inductive Event
  | call (c : Call)
  | other (fs : CpmFileSystem)

/-- A call of a run: its function, whether the drive of its FCB is a host directory, and whether it
was handled here or went on to the native BDOS. -/
structure Routed where
  func : ℕ
  host : Bool
  handled : Bool
  deriving DecidableEq

/-- The calls of a run, in order. -/
def exec (env : Machine) : BdosRouter → List Event → List Routed
  | _, [] => []
  | rt, .other fs :: es => exec env { rt with m_fs := fs } es
  | rt, .call c :: es =>
    ⟨c.func.toNat, host_call env rt c, (rt.route env c).2.isSome⟩ :: exec env (rt.route env c).1 es

/-- The router as it is made. -/
def initial (fs : CpmFileSystem) (default_drive : ℕ) : BdosRouter := ⟨fs, default_drive, false, false⟩

/-- The most recent `F_SFIRST`. -/
def lastFirst (tr : List Routed) : Option Routed := (tr.filter fun r => r.func = 17).getLast?

/-- **Continuity of searches**: every `F_SNEXT` goes where the most recent `F_SFIRST` went. -/
def Continuous (tr : List Routed) : Prop :=
  ∀ pre r post, tr = pre ++ r :: post → r.func = 18 →
    ∀ s, lastFirst pre = some s → r.handled = s.handled

/-- No `F_SNEXT` follows a search of an image drive that follows a search of a host directory. -/
def Unreturned (tr : List Routed) : Prop :=
  ∀ pre r post, tr = pre ++ r :: post → r.func = 18 →
    ∀ s, lastFirst pre = some s → s.host = false → ∀ q ∈ pre, q.func = 17 → q.host = false

/-- Every `F_SFIRST` of a run goes by its drive. -/
theorem exec_first (es : List Event) {q : Routed} (hq : q ∈ exec env rt es) (hf : q.func = 17) :
    q.handled = q.host := by
  induction es generalizing rt with
  | nil => cases hq
  | cons e es ih =>
    cases e with
    | other fs => exact ih hq
    | call c =>
      rcases List.mem_cons.mp hq with rfl | hq
      · exact route_first hf
      · exact ih hq

/-- Every `F_SNEXT` of a run is handled here once a `F_SFIRST` has been. -/
theorem exec_next (es : List Event) {pre post : List Routed} {r : Routed}
    (h : exec env rt es = pre ++ r :: post) (hf : r.func = 18) :
    r.handled = (rt.m_last_search_host || pre.any fun q => decide (q.func = 17) && q.host) := by
  induction es generalizing rt pre with
  | nil => exact absurd h (by simp [exec])
  | cons e es ih =>
    cases e with
    | other fs =>
      have h' : exec env { rt with m_fs := fs } es = pre ++ r :: post := h
      have hr := ih h'
      exact hr
    | call c =>
      cases pre with
      | nil =>
        obtain ⟨rfl, -⟩ := List.cons.inj h
        rw [List.any_nil, Bool.or_false]
        exact route_next hf
      | cons p pre =>
        obtain ⟨rfl, htail⟩ := List.cons.inj h
        rw [ih htail, route_flag, List.any_cons, Bool.or_assoc]

theorem lastFirst_mem {tr : List Routed} {s : Routed} (h : lastFirst tr = some s) :
    s ∈ tr ∧ s.func = 17 := by
  have hmem := List.mem_of_getLast? h
  rw [List.mem_filter, decide_eq_true_eq] at hmem
  exact hmem

/-- **The searches of a run are continuous exactly where no `F_SNEXT` comes after a search of an image
drive that comes after a search of a host directory.** -/
theorem continuous_iff (env : Machine) (fs : CpmFileSystem) (default_drive : ℕ) (es : List Event) :
    Continuous (exec env (initial fs default_drive) es) ↔
      Unreturned (exec env (initial fs default_drive) es) := by
  constructor
  · intro h pre r post htr hf s hs hhost q hq hqf
    obtain ⟨hsmem, hsf⟩ := lastFirst_mem hs
    have hin : ∀ x ∈ pre, x ∈ exec env (initial fs default_drive) es := by
      intro x hx
      rw [htr]
      exact List.mem_append_left _ hx
    have hhandled := h pre r post htr hf s hs
    rw [exec_first es (hin s hsmem) hsf, hhost, exec_next es htr hf] at hhandled
    have hany := (Bool.or_eq_false_iff.mp hhandled).2
    rw [List.any_eq_false] at hany
    simpa [hqf] using hany q hq
  · intro h pre r post htr hf s hs
    obtain ⟨hsmem, hsf⟩ := lastFirst_mem hs
    have hsin : s ∈ exec env (initial fs default_drive) es := by
      rw [htr]
      exact List.mem_append_left _ hsmem
    rw [exec_first es hsin hsf, exec_next es htr hf, initial, Bool.false_or]
    cases hhost : s.host with
    | true =>
      rw [List.any_eq_true]
      exact ⟨s, hsmem, by simp [hsf, hhost]⟩
    | false =>
      rw [List.any_eq_false]
      intro q hq
      have hall := h pre r post htr hf s hs hhost q hq
      simpa using hall

/-- Drive A a host directory, the other drives images. -/
def machineA : Machine where
  s_drives i := if i = 0 then .host_dir else .image
  addressing := Z8002LoaderAddressing
  m_system_tag := 0
  s_alv_offset _ := 0
  s_dpb_offset _ := 0
  s_drive_total_recs _ := 0
  read_console_line _ m := m

/-- **A search on A, one on B, and `F_SNEXT`**: it goes on with the search on A. -/
theorem searchA_searchB_not_continuous : ¬ Continuous (exec machineA
    (initial (CpmFileSystem.sample (1 :: List.replicate 35 0x3f ++ [2]) []) 0)
    [.call ⟨0x0100, 17, 0, 0x5c⟩, .call ⟨0x0100, 17, 0, 0x80⟩, .call ⟨0x0100, 18, 0, 0⟩]) := by
  have htr : exec machineA (initial (CpmFileSystem.sample (1 :: List.replicate 35 0x3f ++ [2]) []) 0)
      [.call ⟨0x0100, 17, 0, 0x5c⟩, .call ⟨0x0100, 17, 0, 0x80⟩, .call ⟨0x0100, 18, 0, 0⟩] =
        [⟨17, true, true⟩, ⟨17, false, false⟩, ⟨18, true, true⟩] := by decide +kernel
  intro h
  rw [htr] at h
  have hlast := h [⟨17, true, true⟩, ⟨17, false, false⟩] ⟨18, true, true⟩ [] rfl rfl ⟨17, false, false⟩
    (by decide)
  cases hlast

end BdosRouter

end Cpm8000.Host
