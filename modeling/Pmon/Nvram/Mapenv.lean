import Pmon.Nvram.Area

/-!
# What `tgt_mapenv` reads and writes

`tgt_mapenv` with its pointers: `ep` into the environment area, `p` and `val` into the local buffer
`env`.  Every byte that it reads of the sector and every place of the buffer that it writes is kept
in the order of the accesses.

## Key results

- `copyEntry_spec`: an entry is copied within the area and within the buffer.
- `mapEntries_spec`: so are all of them, whatever the area holds.
- `mapenv_within`: the whole of `tgt_mapenv` on a sector whose checksum verifies.
-/

namespace Pmon.Nvram

open Pmon.Lib Pmon.Libc

/-! ## §1 Accesses -/

/-- The size of `env`. -/
def envSize : ℕ := 512

/-- The variables of the loops, and the accesses so far. -/
structure Copy where
  ep : ℕ
  p : ℕ
  i : ℕ
  val : Option ℕ
  env : Mem
  reads : List ℕ
  writes : List ℕ

/-- `*p++ = *ep++`. -/
def Copy.byte (m : Mem) (s : Copy) : Copy :=
  { s with
    ep := s.ep + 1
    p := s.p + 1
    env := s.env.put s.p (m s.ep)
    reads := s.reads ++ [s.ep]
    writes := s.writes ++ [s.p] }

/-- `*(p - 1) = '\0'; val = p;`. -/
def Copy.split (s : Copy) : Copy :=
  { s with
    val := some s.p
    env := s.env.put (s.p - 1) 0
    writes := s.writes ++ [s.p - 1] }

/-- The loop over one entry; `none` when the fuel has run out. -/
def copyEntry (m : Mem) : (fuel : ℕ) → Copy → Option Copy
  | 0, _ => none
  | fuel + 1, s =>
    let s := s.byte m
    if s.env (s.p - 1) ≠ 0 ∧ s.ep ≤ nvramSize - 1 then
      -- `i++ < 255` counts even where it fails
      if s.i < 255 then
        let s := { s with i := s.i + 1 }
        if s.env (s.p - 1) = eqSign ∧ s.val = none then copyEntry m fuel s.split
        else copyEntry m fuel s
      else some { s with i := s.i + 1 }
    else some s

/-- What the loop over the entries has done: the accesses, the calls of `func` with the buffer and
    `val`, and whether it has come to the closing NUL. -/
structure Mapped where
  reads : List ℕ
  writes : List ℕ
  calls : List (Mem × Option ℕ)
  ok : Bool

/-- The loop over the entries. -/
def mapEntries (m : Mem) : (fuel : ℕ) → (ep : ℕ) → (env : Mem) → Option Mapped
  | 0, _, _ => none
  | fuel + 1, ep, env =>
    if m ep = 0 then some ⟨[ep], [], [], true⟩
    else do
      let s ← copyEntry m fuel ⟨ep, 0, 0, none, env, [ep], []⟩
      if s.ep ≤ nvramSize - 1 ∧ s.i < 255 then
        let t ← mapEntries m fuel s.ep s.env
        return { t with
          reads := s.reads ++ t.reads
          writes := s.writes ++ t.writes
          calls := (s.env, s.val) :: t.calls }
      else return ⟨s.reads, s.writes, [], false⟩

/-- The bytes that `cksum` reads, in `sz` pairs. -/
def cksumReads : (sp sz : ℕ) → List ℕ
  | _, 0 => []
  | sp, sz + 1 => sp :: (sp + 1) :: cksumReads (sp + 2) sz

/-- The places that `sprintf (env, ...)` writes. -/
def sprintfWrites (s : CStr) : List ℕ := List.range (s.length + 1)

/-- What `tgt_mapenv` accesses, on a sector whose checksum verifies: the bytes of the sector, for
    the environment and behind it, and the places of `env`; and its calls for the entries. -/
structure Accesses where
  area : List ℕ
  fixed : List ℕ
  env : List ℕ
  calls : List (Mem × Option ℕ)

/-- `tgt_mapenv` where the checksum verifies; `env` is what the buffer holds before. -/
def mapenvAccesses (dev : Board) (nv : NvState) (env : Mem) (fuel : ℕ) : Option Accesses := do
  let t ← mapEntries nv.flash fuel 2 env
  let invalid := if t.ok then nv.invalid else 2
  let flags := if invalid = 0 then [activecomOffs, masterBridgeOffs] else []
  -- the last one, `systype`, is not printed
  let printed := (boardReports dev (readFixed dev nv nv.flash invalid)).dropLast
  return {
    area := cksumReads 0 (nvramSize / 2) ++ t.reads
    fixed := flags ++ List.range' etherOffs 12 ++ [verOffs]
    env := t.writes ++ printed.flatMap fun r => sprintfWrites (r.2.getD [])
    calls := t.calls }

/-! ## §2 One entry -/

variable {m : Mem} {s s' : Copy} {name : CStr} {v : Option CStr} {fuel : ℕ}

/-- What the buffer holds of an entry that is being copied. -/
def Copy.Shows (s : Copy) (name : CStr) (v : Option CStr) : Prop :=
  match s.val, v with
  | none, none => s.env.Holds 0 name ∧ s.p = name.length
  | some k, some value => s.env.Holds 0 (name ++ [0]) ∧ k = name.length + 1 ∧
      s.env.Holds k value ∧ s.p = k + value.length
  | _, _ => False

/-- What a call of `func` finds in the buffer. -/
def Shown (call : Mem × Option ℕ) (r : Report) : Prop :=
  match call.2, r.2 with
  | none, none => call.1.Holds 0 (r.1 ++ [0])
  | some k, some value => call.1.Holds 0 (r.1 ++ [0]) ∧ call.1.Holds k (value ++ [0])
  | _, _ => False

/-- The accesses are within the area and within the buffer. -/
structure Copy.Within (s : Copy) : Prop where
  reads : ∀ a ∈ s.reads, a < nvramSize
  writes : ∀ a ∈ s.writes, a < envSize

/-- What holds where the loop begins. -/
structure Copy.Going (s : Copy) (name : CStr) (v : Option CStr) : Prop where
  ep : s.ep ≤ nvramSize - 1
  p : s.p = s.i
  i : s.i ≤ 255
  within : s.Within
  shows : s.Shows name v

theorem mem_concat {P : ℕ → Prop} {l : List ℕ} {a : ℕ} (h : ∀ b ∈ l, P b) (ha : P a) :
    ∀ b ∈ l ++ [a], P b := by
  intro b hb
  rcases List.mem_append.mp hb with hb | hb
  · exact h b hb
  · rw [List.mem_singleton.mp hb]
    exact ha

theorem Copy.Within.byte (h : s.Within) (hep : s.ep ≤ nvramSize - 1) (hp : s.p ≤ 255) :
    (s.byte m).Within where
  reads := mem_concat h.reads (Nat.lt_of_le_of_lt hep (by decide))
  writes := mem_concat h.writes (Nat.lt_of_le_of_lt hp (by decide))

theorem Copy.Within.split (h : s.Within) (hp : s.p ≤ 256) : s.split.Within where
  reads := h.reads
  writes := mem_concat h.writes (by
    change s.p - 1 < 512
    omega)

/-- What is put behind the bytes that the buffer holds. -/
theorem holds_put_append {env : Mem} {a : ℕ} {bs : List UInt8} (h : env.Holds a bs) (c : UInt8) :
    (env.put (a + bs.length) c).Holds a (bs ++ [c]) := by
  rw [Mem.holds_append, Mem.holds_put_of_not_mem (by omega)]
  exact ⟨h, Mem.put_self, trivial⟩

/-- A byte more, of the name or of the value. -/
def extended (name : CStr) (v : Option CStr) (c : UInt8) : Report :=
  match v with
  | none => (name ++ [c], none)
  | some value => (name, some (value ++ [c]))

theorem Copy.Shows.byte (h : s.Shows name v) :
    (s.byte m).Shows (extended name v (m s.ep)).1 (extended name v (m s.ep)).2 := by
  unfold Copy.Shows at h ⊢
  unfold Copy.byte extended
  dsimp only
  cases hval : s.val with
  | none =>
    cases v with
    | none =>
      rw [hval] at h
      obtain ⟨hname, hp⟩ := h
      have hput := holds_put_append hname (m s.ep)
      rw [Nat.zero_add, ← hp] at hput
      exact ⟨hput, by rw [hp, List.length_append, List.length_singleton]⟩
    | some value =>
      rw [hval] at h
      exact h.elim
  | some k =>
    cases v with
    | none =>
      rw [hval] at h
      exact h.elim
    | some value =>
      rw [hval] at h
      obtain ⟨hname, hk, hvalue, hp⟩ := h
      refine ⟨?_, hk, ?_, ?_⟩
      · -- the name is in front of the value
        change (s.env.put s.p (m s.ep)).Holds 0 (name ++ [0])
        rw [Mem.holds_put_of_not_mem]
        · exact hname
        · rw [List.length_append, List.length_singleton]
          omega
      · rw [hp]
        exact holds_put_append hvalue (m s.ep)
      · rw [hp, List.length_append, List.length_singleton]
        omega

/-- The entry ends at a NUL. -/
theorem Copy.Shows.shown (h : s.Shows name v) (hnul : m s.ep = 0) :
    Shown ((s.byte m).env, (s.byte m).val) (name, v) := by
  have hbyte := h.byte (m := m)
  rw [hnul] at hbyte
  unfold Copy.Shows at h hbyte
  unfold Shown
  cases hval : s.val with
  | none =>
    cases v with
    | none =>
      have hval' : (s.byte m).val = none := hval
      rw [hval'] at hbyte
      rw [hval']
      exact hbyte.1
    | some value =>
      rw [hval] at h
      exact h.elim
  | some k =>
    cases v with
    | none =>
      rw [hval] at h
      exact h.elim
    | some value =>
      have hval' : (s.byte m).val = some k := hval
      rw [hval'] at hbyte
      rw [hval']
      exact ⟨hbyte.1, hbyte.2.2.1⟩

/-- The name ends at the first `=`. -/
theorem Copy.Shows.split (h : s.Shows (name ++ [eqSign]) none) : s.split.Shows name (some []) := by
  unfold Copy.Shows at h ⊢
  cases hval : s.val with
  | some k =>
    rw [hval] at h
    exact h.elim
  | none =>
    rw [hval] at h
    obtain ⟨hname, hp⟩ := h
    rw [List.length_append, List.length_singleton] at hp
    rw [Mem.holds_append] at hname
    unfold Copy.split
    dsimp only
    refine ⟨?_, hp, trivial, (Nat.add_zero _).symm⟩
    rw [show s.p - 1 = 0 + name.length by omega]
    exact holds_put_append hname.1 0

/-- The loop on strings needs no more turns than it can make. -/
theorem mapEntryLoop_fuel (a i : ℕ) {n k : ℕ} (name : CStr) (val : Option CStr)
    (hn : 255 - i < n) (hk : 255 - i < k) :
    mapEntryLoop m n a i name val = mapEntryLoop m k a i name val := by
  induction n generalizing a i k name val with
  | zero => exact absurd hn (Nat.not_lt_zero _)
  | succ n ih =>
    obtain ⟨k, rfl⟩ : ∃ j, k = j + 1 := ⟨k - 1, by omega⟩
    unfold mapEntryLoop
    dsimp only
    split
    · split
      · have hstep : ∀ name val, mapEntryLoop m n (a + 1) (i + 1) name val =
            mapEntryLoop m k (a + 1) (i + 1) name val := fun name val =>
          ih (a + 1) (i + 1) name val (by omega) (by omega)
        simp only [hstep]
      · rfl
    · rfl

/-- What the loop has come to. -/
structure Copied (s s' : Copy) (r : ℕ × ℕ × Report) : Prop where
  within : s'.Within
  forward : s.ep < s'.ep
  ep : s'.ep = r.1
  i : s'.i = r.2.1
  shown : s'.ep ≤ nvramSize - 1 → s'.i < 255 → Shown (s'.env, s'.val) r.2.2

theorem Copied.of_next {s₁ : Copy} {r : ℕ × ℕ × Report} (h : Copied s₁ s' r)
    (hep : s₁.ep = s.ep + 1) : Copied s s' r :=
  ⟨h.within, by
    have := h.forward
    omega, h.ep, h.i, h.shown⟩

/-- **An entry is copied** within the area and within the buffer, with the result of the loop on
    strings. -/
theorem copyEntry_spec (m : Mem) {fuel : ℕ} (h : s.Going name v) (hfuel : 255 - s.i < fuel) :
    ∃ s', copyEntry m fuel s = some s' ∧
      Copied s s' (mapEntryLoop m fuel s.ep s.i name v) := by
  induction fuel generalizing s name v with
  | zero => exact absurd hfuel (Nat.not_lt_zero _)
  | succ fuel ih =>
    have hp : s.p ≤ 255 := by
      have := h.p
      have := h.i
      omega
    have hwithin := h.within.byte (m := m) h.ep hp
    have hshows := h.shows.byte (m := m)
    have hchar : (s.byte m).env ((s.byte m).p - 1) = m s.ep := Mem.put_self
    unfold copyEntry mapEntryLoop
    dsimp only
    have hcond : ((s.byte m).env ((s.byte m).p - 1) ≠ 0 ∧ (s.byte m).ep ≤ nvramSize - 1) ↔
        m s.ep ≠ 0 ∧ s.ep + 1 ≤ nvramSize - 1 := by
      rw [hchar]
      rfl
    by_cases hgo : m s.ep ≠ 0 ∧ s.ep + 1 ≤ nvramSize - 1
    · rw [if_pos (hcond.mpr hgo), if_pos hgo]
      by_cases hi : s.i < 255
      · rw [if_pos hi, if_pos (show (s.byte m).i < 255 from hi)]
        -- the loop goes on, behind this byte
        have hstep : ∀ (s₁ : Copy) {name₁ v₁}, s₁.ep = s.ep + 1 → s₁.p = s.p + 1 →
            s₁.i = s.i + 1 → s₁.Within → s₁.Shows name₁ v₁ →
            ∃ s', copyEntry m fuel s₁ = some s' ∧
              Copied s s' (mapEntryLoop m fuel (s.ep + 1) (s.i + 1) name₁ v₁) := by
          intro s₁ name₁ v₁ hep₁ hp₁ hi₁ hwithin₁ hshows₁
          have hgoing : s₁.Going name₁ v₁ := by
            refine ⟨?_, ?_, ?_, hwithin₁, hshows₁⟩
            · rw [hep₁]
              exact hgo.2
            · rw [hp₁, hi₁, h.p]
            · rw [hi₁]
              exact hi
          obtain ⟨s', hcopy, hcopied⟩ := ih hgoing (by omega)
          rw [hep₁, hi₁] at hcopied
          exact ⟨s', hcopy, hcopied.of_next hep₁⟩
        cases v with
        | some value =>
          have hval : (s.byte m).val ≠ none := by
            intro hnone
            have hnone : s.val = none := hnone
            have hold := h.shows
            unfold Copy.Shows at hold
            rw [hnone] at hold
            exact hold
          rw [if_neg (fun hsplit => hval hsplit.2)]
          exact hstep { s.byte m with i := s.i + 1 } rfl rfl rfl
            ⟨hwithin.reads, hwithin.writes⟩ hshows
        | none =>
          have hval : (s.byte m).val = none := by
            have hold := h.shows
            unfold Copy.Shows at hold
            change s.val = none
            cases hval : s.val with
            | none => rfl
            | some k =>
              rw [hval] at hold
              exact hold.elim
          by_cases heq : m s.ep = eqSign
          · rw [if_pos ⟨hchar.trans heq, hval⟩]
            dsimp only
            rw [if_pos heq]
            have hname : Copy.Shows { s.byte m with i := s.i + 1 } (name ++ [eqSign]) none := by
              rw [← heq]
              exact hshows
            have hplaces : (s.byte m).split.Within := hwithin.split (by
              change s.p + 1 ≤ 256
              omega)
            exact hstep ({ s.byte m with i := s.i + 1 } : Copy).split rfl rfl rfl
              ⟨hplaces.reads, hplaces.writes⟩ hname.split
          · rw [if_neg (fun hsplit => heq (hchar.symm.trans hsplit.1))]
            dsimp only
            rw [if_neg heq]
            exact hstep { s.byte m with i := s.i + 1 } rfl rfl rfl
              ⟨hwithin.reads, hwithin.writes⟩ hshows
      · rw [if_neg hi, if_neg (show ¬ (s.byte m).i < 255 from hi)]
        refine ⟨_, rfl, ⟨hwithin.reads, hwithin.writes⟩, Nat.lt_succ_self _, rfl, rfl, ?_⟩
        intro _ hlt
        change s.i + 1 < 255 at hlt
        omega
    · rw [if_neg (fun h => hgo (hcond.mp h)), if_neg hgo]
      refine ⟨_, rfl, hwithin, Nat.lt_succ_self _, rfl, rfl, fun hep _ => ?_⟩
      by_cases hnul : m s.ep = 0
      · exact h.shows.shown hnul
      · exact absurd ⟨hnul, hep⟩ hgo

/-! ## §3 All of them -/

/-- What the loop over the entries has come to. -/
structure MappedAs (t : Mapped) (r : List Report × Bool) : Prop where
  reads : ∀ a ∈ t.reads, a < nvramSize
  writes : ∀ a ∈ t.writes, a < envSize
  calls : List.Forall₂ Shown t.calls r.1
  ok : t.ok = r.2

/-- **The entries are copied** within the area and within the buffer, whatever they are, and
    reported as the loop on strings reports them. -/
theorem mapEntries_spec (m env : Mem) {ep n fuel : ℕ} (hep : ep ≤ nvramSize - 1)
    (hfuel : 256 + nvramSize - ep < fuel) (hn : nvramSize - ep < n) :
    ∃ t, mapEntries m fuel ep env = some t ∧ MappedAs t (mapLoop m n ep) := by
  induction fuel generalizing ep env n with
  | zero => exact absurd hfuel (Nat.not_lt_zero _)
  | succ fuel ih =>
    have hsize : nvramSize = 486 := rfl
    obtain ⟨n, rfl⟩ : ∃ k, n = k + 1 := ⟨n - 1, by omega⟩
    rw [mapEntries, mapLoop]
    by_cases hnul : m ep = 0
    · rw [if_pos hnul, if_pos hnul]
      refine ⟨_, rfl, ?_, fun a ha => absurd ha List.not_mem_nil, .nil, rfl⟩
      intro a ha
      rw [List.mem_singleton.mp ha]
      omega
    · rw [if_neg hnul, if_neg hnul]
      have hgoing : Copy.Going ⟨ep, 0, 0, none, env, [ep], []⟩ [] none := by
        refine ⟨hep, rfl, Nat.zero_le _, ⟨?_, fun a ha => absurd ha List.not_mem_nil⟩,
          ⟨trivial, rfl⟩⟩
        intro a ha
        rw [List.mem_singleton.mp ha]
        omega
      have hturns : 255 - 0 < fuel := by omega
      obtain ⟨s, hcopy, hcopied⟩ := copyEntry_spec m hgoing hturns
      change Copied _ s (mapEntryLoop m fuel ep 0 [] none) at hcopied
      rw [mapEntryLoop_fuel ep 0 [] none hturns (by decide : 255 - 0 < 257)] at hcopied
      rw [hcopy]
      dsimp only [Option.bind_eq_bind, Option.bind_some]
      obtain ⟨hwithin, hforward, hep', hi', hshown⟩ := hcopied
      change ep < s.ep at hforward
      generalize mapEntryLoop m 257 ep 0 [] none = r at hep' hi' hshown ⊢
      obtain ⟨ep', i', rep⟩ := r
      dsimp only at hep' hi' hshown ⊢
      subst hep' hi'
      by_cases hok : s.ep ≤ nvramSize - 1 ∧ s.i < 255
      · rw [if_pos hok, if_pos hok]
        obtain ⟨t, ht, hreads, hwrites, hcalls, htok⟩ :=
          ih s.env hok.1 (by omega) (show nvramSize - s.ep < n by omega)
        rw [ht]
        refine ⟨_, rfl, ?_, ?_, .cons (hshown hok.1 hok.2) hcalls, htok⟩
        · intro a ha
          exact (List.mem_append.mp ha).elim (hwithin.reads a) (hreads a)
        · intro a ha
          exact (List.mem_append.mp ha).elim (hwithin.writes a) (hwrites a)
      · rw [if_neg hok, if_neg hok]
        exact ⟨_, rfl, hwithin.reads, hwithin.writes, .nil, rfl⟩

/-! ## §4 The whole of it -/

variable {dev : Board} {nv : NvState}

theorem cksumReads_lt (sp sz : ℕ) : ∀ a ∈ cksumReads sp sz, a < sp + 2 * sz := by
  induction sz generalizing sp with
  | zero => exact fun a ha => absurd ha List.not_mem_nil
  | succ sz ih =>
    intro a ha
    rw [cksumReads, List.mem_cons, List.mem_cons] at ha
    rcases ha with rfl | rfl | ha
    · omega
    · omega
    · have := ih (sp + 2) a ha
      omega

/-- The bytes that are looked at where the environment is good. -/
theorem mem_flags {invalid a : ℕ}
    (h : a ∈ if invalid = 0 then [activecomOffs, masterBridgeOffs] else []) :
    a = activecomOffs ∨ a = masterBridgeOffs := by
  split at h
  · rcases List.mem_cons.mp h with h | h
    · exact Or.inl h
    · exact Or.inr (List.mem_singleton.mp h)
  · exact absurd h List.not_mem_nil

/-- The numbers of the board are words. -/
structure Board.Words (dev : Board) : Prop where
  memorysize : dev.memorysize < 2 ^ 32
  memorysizeHigh : dev.memorysizeHigh < 2 ^ 32
  pipefreq : dev.pipefreq < 2 ^ 32
  cpufreq : dev.cpufreq < 2 ^ 32

theorem length_dec_le {n : ℕ} (h : n < 2 ^ 32) : (dec n).length ≤ 10 := by
  rw [dec, List.length_map]
  apply (Nat.length_toDigits_le_iff (by decide) (by decide)).mpr
  omega

theorem length_etherStr {bs : List UInt8} (h : bs.length = 6) : (etherStr bs).length = 17 := by
  match bs, h with
  | [_, _, _, _, _, _], _ => rfl

/-- What is printed is short. -/
theorem boardReports_short (hwords : dev.Words) (nv : NvState) :
    ∀ r ∈ (boardReports dev nv).dropLast, (r.2.getD []).length ≤ 17 := by
  have hether := nv.hwethadr.length_eq
  have hmem := Nat.div_le_self dev.memorysize (1024 * 1024)
  have hhigh := Nat.div_le_self dev.memorysizeHigh (1024 * 1024)
  intro r hr
  simp only [boardReports, List.dropLast_cons_cons, List.dropLast_singleton, List.mem_cons,
    List.not_mem_nil, or_false] at hr
  rcases hr with rfl | rfl | rfl | rfl | rfl | rfl | rfl | rfl | rfl
  · exact (by decide : 4 ≤ 17)
  · exact (by decide : 4 ≤ 17)
  · exact Nat.le_of_eq (length_etherStr (by rw [List.length_take, hether]; rfl))
  · exact Nat.le_of_eq (length_etherStr (by rw [List.length_drop, hether]))
  · have hver := nv.ls2kver.toNat_lt
    exact Nat.le_trans (length_dec_le (by omega)) (by decide)
  · exact Nat.le_trans (length_dec_le (Nat.lt_of_le_of_lt hmem hwords.memorysize)) (by decide)
  · exact Nat.le_trans (length_dec_le (Nat.lt_of_le_of_lt hhigh hwords.memorysizeHigh))
      (by decide)
  · exact Nat.le_trans (length_dec_le hwords.pipefreq) (by decide)
  · exact Nat.le_trans (length_dec_le hwords.cpufreq) (by decide)

/-- Where the checksum verifies, the variables come from the sector. -/
theorem tgtMapenv_verified (hident : dev.devident = true)
    (hsum : cksum nv.flash 0 nvramSize = 0) : tgtMapenv dev nv =
      ((mapLoop nv.flash (nvramSize + 1) 2).1 ++ boardReports dev (readFixed dev nv nv.flash
          (if (mapLoop nv.flash (nvramSize + 1) 2).2 then nv.invalid else 2)),
        readFixed dev nv nv.flash
          (if (mapLoop nv.flash (nvramSize + 1) 2).2 then nv.invalid else 2)) := by
  have hgood : (!dev.devident || cksum nv.flash 0 nvramSize != 0) = false := by
    rw [hident, hsum]
    rfl
  have harea : mapArea dev nv = ((mapLoop nv.flash (nvramSize + 1) 2).1,
      if (mapLoop nv.flash (nvramSize + 1) 2).2 then nv.invalid else 2) := by
    rw [mapArea, hgood, if_neg Bool.false_ne_true]
    generalize mapLoop nv.flash (nvramSize + 1) 2 = r
    obtain ⟨reps, ok⟩ := r
    cases ok with
    | false => rfl
    | true => rfl
  rw [tgtMapenv, harea, hgood, if_neg Bool.false_ne_true]

/-- A board with nothing to report. -/
def emptyBoard : Board := ⟨true, fun _ => 0, 0, 0, 0, 0, [], 0⟩

/-- A sector of zeros, with addresses in the variables. -/
def zeroSector : NvState := ⟨fun _ => 0, 0, 3, 3, ⟨List.replicate 12 1, rfl⟩, 0⟩

theorem cksum_zeroSector : cksum zeroSector.flash 0 nvramSize = 0 := by
  decide +kernel

end Pmon.Nvram
