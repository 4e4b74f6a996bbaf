import Mathlib.Algebra.Order.Group.Nat
import Mathlib.Data.Nat.SuccPred
import Mathlib.Data.Option.Basic
import Mathlib.Data.List.Basic
import Mathlib.Logic.Function.Basic
import Mathlib.Tactic.Common

/-!
# The vendor area of a BOOTP reply

`vend_rfc1048` of `pmon/netio/bootp.c`, which takes the parameters of the network from the options
of the area.  It reads the area in pairs of a tag and a size; the format has tags without a size.

## Key results

- `vendLoop_eq_some_iff`: what the loop makes of the pairs, and when it stays inside the area.
- `vendRfc1048_exact`: when the options are taken as the format has them.
- `vendRfc1048_inStep`: in particular, when the pads come in pairs.
-/

namespace Pmon.Netio.Bootp

/-! ## §1 The parameters -/

/-- What an option may set. -/
inductive Field where
  | mask
  | gateip
  | dnsip
  | hostname
  | domainname
  deriving DecidableEq

/-- The `bootparams`: the bytes of each field that is known. -/
abbrev BootParams := Field → Option (List UInt8)

def tagPad : UInt8 := 0

def tagEnd : UInt8 := 255

/-- The field of a tag: `TAG_SUBNET_MASK`, `TAG_GATEWAY`, `TAG_DOMAIN_SERVER`, `TAG_HOST_NAME` and
    `TAG_DOMAIN_NAME`. -/
def fieldOf (tag : UInt8) : Option Field :=
  if tag = 1 then some .mask
  else if tag = 3 then some .gateip
  else if tag = 6 then some .dnsip
  else if tag = 12 then some .hostname
  else if tag = 15 then some .domainname
  else none

/-- The sizes that are taken: an address is a `long`, and a name has to leave room for its
    terminator. -/
def Takes : Field → ℕ → Prop
  | .mask, size | .gateip, size | .dnsip, size => size = 4
  | .hostname, size | .domainname, size => size < 256

instance : ∀ (f : Field) (size : ℕ), Decidable (Takes f size)
  | .mask, size | .gateip, size | .dnsip, size => inferInstanceAs (Decidable (size = 4))
  | .hostname, size | .domainname, size => inferInstanceAs (Decidable (size < 256))

/-! ## §2 The loop -/

/-- The switch, with the bytes behind the size: `none` where `bcopy` would read behind the area. -/
def setField (tag : UInt8) (size : ℕ) (cp : List UInt8) (b : BootParams) : Option BootParams :=
  match fieldOf tag with
  | none => some b
  | some f =>
    if Takes f size ∧ b f = none then
      if size ≤ cp.length then some (Function.update b f (some (cp.take size))) else none
    else some b

/-- The loop over what is left of the area: `none` where a byte behind it would be read. -/
def vendLoop : List UInt8 → BootParams → Option BootParams
  | [], b => some b
  -- the size is read before the tag is looked at
  | [_], _ => none
  | tag :: size :: cp, b =>
    if tag = tagEnd then some b
    else (setField tag size.toNat cp b).bind fun b => vendLoop (cp.drop size.toNat) b
termination_by cp => cp.length

/-- `vend_rfc1048`: the options stand behind the magic cookie. -/
def vendRfc1048 (b : BootParams) (vend : List UInt8) : Option BootParams := vendLoop (vend.drop 4) b

/-! ## §3 The format -/

/-- The options of an area, by the format: a pad is a single byte, the end tag ends the list, and
    every other option has a size and as many bytes. -/
def options : List UInt8 → Option (List (UInt8 × List UInt8))
  | [] => none
  | tag :: cp =>
    if tag = tagEnd then some []
    else if tag = tagPad then options cp
    else
      match cp with
      | [] => none
      | size :: cp =>
        if size.toNat ≤ cp.length then
          (options (cp.drop size.toNat)).map fun opts => (tag, cp.take size.toNat) :: opts
        else none
termination_by cp => cp.length

/-- The bytes of the first option for a field. -/
def firstOption (f : Field) (opts : List (UInt8 × List UInt8)) : Option (List UInt8) :=
  (opts.find? fun opt => fieldOf opt.1 = some f).map Prod.snd

/-- No byte behind the area is read, and if the area is a list of options, every field that was not
    known is taken from its first option, and nothing else changes. -/
def VendRight (b : BootParams) (vend : List UInt8) : Prop :=
  ∃ b', vendRfc1048 b vend = some b' ∧
    ∀ opts, options (vend.drop 4) = some opts → ∀ f, b' f = (b f).or (firstOption f opts)

/-! ## §4 Pairs -/

/-- A tag and a size as the loop sees them, with what is left of the area behind them. -/
structure Pair where
  tag : UInt8
  size : ℕ
  rest : List UInt8

/-- What a pair is followed by. -/
def Pair.bytes (p : Pair) : List UInt8 := p.rest.take p.size

/-- The area, in pairs. -/
def pairs : List UInt8 → List Pair
  | [] => []
  | [_] => []
  | tag :: size :: cp =>
    if tag = tagEnd then [] else ⟨tag, size.toNat, cp⟩ :: pairs (cp.drop size.toNat)
termination_by cp => cp.length

/-- Every tag of the area, in pairs, is followed by a byte. -/
def Tagged : List UInt8 → Prop
  | [] => True
  | [_] => False
  | tag :: size :: cp => tag = tagEnd ∨ Tagged (cp.drop size.toNat)
termination_by cp => cp.length

/-- The first pair for a field, of a size that the field takes. -/
def firstPair (f : Field) (cp : List UInt8) : Option Pair :=
  (pairs cp).find? fun p => fieldOf p.tag = some f ∧ Takes f p.size

variable {b b' : BootParams} {cp vend : List UInt8} {f : Field} {tag size : UInt8}

theorem firstPair_cons (htag : tag ≠ tagEnd) :
    firstPair f (tag :: size :: cp) =
      if fieldOf tag = some f ∧ Takes f size.toNat then some ⟨tag, size.toNat, cp⟩
      else firstPair f (cp.drop size.toNat) := by
  unfold firstPair
  rw [pairs, if_neg htag, List.find?_cons]
  split
  next hfirst =>
    rw [if_pos (by simpa using hfirst)]
  next hfirst =>
    rw [if_neg (by simpa using hfirst)]

/-- The pairs that are used lie inside the area. -/
def UsedInside (b : BootParams) (cp : List UInt8) : Prop :=
  ∀ f, b f = none → ∀ p, firstPair f cp = some p → p.size ≤ p.rest.length

/-- The parameters with what the pairs add to them. -/
def withPairs (b : BootParams) (cp : List UInt8) : BootParams := fun f =>
  (b f).or ((firstPair f cp).map Pair.bytes)

theorem withPairs_nil (h : ∀ f, firstPair f cp = none) : withPairs b cp = b := by
  funext f
  rw [withPairs, h, Option.map_none, Option.or_none]

theorem usedInside_nil (h : ∀ f, firstPair f cp = none) : UsedInside b cp := by
  intro f _ p hp
  rw [h] at hp
  cases hp

/-- A pair that sets nothing may be left out. -/
theorem unused_pair (htag : tag ≠ tagEnd)
    (hunused : ∀ f, b f = none → ¬ (fieldOf tag = some f ∧ Takes f size.toNat)) :
    (UsedInside b (tag :: size :: cp) ↔ UsedInside b (cp.drop size.toNat)) ∧
      withPairs b (tag :: size :: cp) = withPairs b (cp.drop size.toNat) := by
  have hfirst : ∀ f, b f = none →
      firstPair f (tag :: size :: cp) = firstPair f (cp.drop size.toNat) := by
    intro f hf
    rw [firstPair_cons htag, if_neg (hunused f hf)]
  constructor
  · unfold UsedInside
    constructor
    · intro hinside f hf p hp
      exact hinside f hf p (by rwa [hfirst f hf])
    · intro hinside f hf p hp
      exact hinside f hf p (by rwa [← hfirst f hf])
  · funext f
    unfold withPairs
    cases hf : b f with
    | none => rw [hfirst f hf]
    | some x => rfl

/-- A pair that sets a field, and lies inside the area. -/
theorem used_pair {g : Field} (htag : tag ≠ tagEnd) (hg : fieldOf tag = some g)
    (htakes : Takes g size.toNat) (hnone : b g = none) (hinside : size.toNat ≤ cp.length) :
    (UsedInside b (tag :: size :: cp) ↔
      UsedInside (Function.update b g (some (cp.take size.toNat))) (cp.drop size.toNat)) ∧
    withPairs b (tag :: size :: cp) =
      withPairs (Function.update b g (some (cp.take size.toNat))) (cp.drop size.toNat) := by
  have hself : firstPair g (tag :: size :: cp) = some ⟨tag, size.toNat, cp⟩ := by
    rw [firstPair_cons htag, if_pos ⟨hg, htakes⟩]
  have hother : ∀ f, f ≠ g →
      firstPair f (tag :: size :: cp) = firstPair f (cp.drop size.toNat) := by
    intro f hne
    rw [firstPair_cons htag, if_neg]
    rintro ⟨hf, -⟩
    rw [hg] at hf
    exact hne (Option.some.inj hf).symm
  constructor
  · unfold UsedInside
    constructor
    · intro hall f hf p hp
      by_cases hfg : f = g
      · rw [hfg, Function.update_self] at hf
        cases hf
      · rw [Function.update_of_ne hfg] at hf
        exact hall f hf p (by rwa [hother f hfg])
    · intro hall f hf p hp
      by_cases hfg : f = g
      · rw [hfg, hself] at hp
        cases hp
        exact hinside
      · rw [hother f hfg] at hp
        exact hall f (by rwa [Function.update_of_ne hfg]) p hp
  · funext f
    unfold withPairs
    by_cases hfg : f = g
    · subst hfg
      rw [hself, hnone, Function.update_self]
      rfl
    · rw [hother f hfg, Function.update_of_ne hfg]

/-- **What the loop makes of the pairs**: it stays inside the area if every tag is followed by a
    byte and every pair that is used by its bytes. -/
theorem vendLoop_eq_some_iff : vendLoop cp b = some b' ↔
    Tagged cp ∧ UsedInside b cp ∧ b' = withPairs b cp := by
  fun_induction pairs cp generalizing b with
  | case1 =>
    have hnone : ∀ f, firstPair f [] = none := by
      intro f
      rw [firstPair, pairs, List.find?_nil]
    rw [vendLoop, Tagged, withPairs_nil hnone, Option.some_inj, eq_comm]
    simp [usedInside_nil hnone]
  | case2 tag =>
    rw [vendLoop, Tagged]
    simp
  | case3 size cp =>
    have hnone : ∀ f, firstPair f (tagEnd :: size :: cp) = none := by
      intro f
      rw [firstPair, pairs, if_pos rfl, List.find?_nil]
    rw [vendLoop, if_pos rfl, Tagged, withPairs_nil hnone, Option.some_inj, eq_comm]
    simp [usedInside_nil hnone]
  | case4 tag size cp hend ih =>
    have htagged : Tagged (tag :: size :: cp) ↔ Tagged (cp.drop size.toNat) := by
      rw [Tagged]
      simp [hend]
    rw [vendLoop, if_neg hend, htagged]
    by_cases hused : ∃ g, fieldOf tag = some g ∧ Takes g size.toNat ∧ b g = none
    · obtain ⟨g, hg, htakes, hnone⟩ := hused
      have hset : setField tag size.toNat cp b =
          if size.toNat ≤ cp.length then
            some (Function.update b g (some (cp.take size.toNat)))
          else none := by
        unfold setField
        rw [hg]
        simp only [htakes, hnone, true_and, if_true]
      by_cases hinside : size.toNat ≤ cp.length
      · obtain ⟨hiff, hwith⟩ := used_pair hend hg htakes hnone hinside
        rw [hset, if_pos hinside, Option.bind_some, ih, hiff, hwith]
      · rw [hset, if_neg hinside, Option.bind_none]
        have hself : firstPair g (tag :: size :: cp) = some ⟨tag, size.toNat, cp⟩ := by
          rw [firstPair_cons hend, if_pos ⟨hg, htakes⟩]
        constructor
        · rintro ⟨⟩
        · rintro ⟨-, hall, -⟩
          exact absurd (hall g hnone _ hself) hinside
    · have hset : setField tag size.toNat cp b = some b := by
        unfold setField
        cases hfield : fieldOf tag with
        | none => rfl
        | some g => exact if_neg fun hand => hused ⟨g, hfield, hand⟩
      have hunused : ∀ f, b f = none → ¬ (fieldOf tag = some f ∧ Takes f size.toNat) :=
        fun f hf hand => hused ⟨f, hand.1, hand.2, hf⟩
      obtain ⟨hiff, hwith⟩ : (UsedInside b (tag :: size :: cp) ↔
          UsedInside b (cp.drop size.toNat)) ∧
          withPairs b (tag :: size :: cp) = withPairs b (cp.drop size.toNat) :=
        unused_pair hend hunused
      rw [hset, Option.bind_some, ih, hiff, hwith]

/-- **When the options are taken as the format has them**: exactly if the pairs stay inside the
    area and, in a list of options, each field that is not known has the same bytes in its first
    pair as in its first option. -/
theorem vendRfc1048_exact (b : BootParams) (vend : List UInt8) :
    VendRight b vend ↔
      Tagged (vend.drop 4) ∧ UsedInside b (vend.drop 4) ∧
        ∀ opts, options (vend.drop 4) = some opts → ∀ f, b f = none →
          (firstPair f (vend.drop 4)).map Pair.bytes = firstOption f opts := by
  unfold VendRight vendRfc1048
  simp only [vendLoop_eq_some_iff]
  constructor
  · rintro ⟨b', ⟨htagged, hinside, rfl⟩, hright⟩
    refine ⟨htagged, hinside, ?_⟩
    intro opts hopts f hf
    have hfield := hright opts hopts f
    rwa [withPairs, hf, Option.none_or, Option.none_or] at hfield
  · rintro ⟨htagged, hinside, hsame⟩
    refine ⟨_, ⟨htagged, hinside, rfl⟩, ?_⟩
    intro opts hopts f
    unfold withPairs
    cases hf : b f with
    | none => rw [hsame opts hopts f hf]
    | some x => rfl

/-! ## §5 Areas in step -/

/-- Reading in pairs keeps in step with the format: pads come in pairs, or a pad stands right
    before the end tag, and the end tag is not the last byte. -/
def InStep : List UInt8 → Prop
  | [] => True
  | [_] => False
  | tag :: size :: cp =>
    if tag = tagEnd then True
    else if tag = tagPad then size = tagPad ∧ InStep cp ∨ size = tagEnd ∧ cp.length ≤ 255
    else InStep (cp.drop size.toNat)
termination_by cp => cp.length

variable {opts : List (UInt8 × List UInt8)}

theorem options_end : options (tagEnd :: cp) = some [] := by
  rw [options.eq_def]
  exact if_pos rfl

theorem options_pad : options (tagPad :: cp) = options cp := by
  conv_lhs => rw [options.eq_def]
  exact (if_neg (by decide)).trans (if_pos rfl)

theorem options_cons (hend : tag ≠ tagEnd) (hpad : tag ≠ tagPad) :
    options (tag :: size :: cp) =
      if size.toNat ≤ cp.length then
        (options (cp.drop size.toNat)).map fun opts => (tag, cp.take size.toNat) :: opts
      else none := by
  conv_lhs => rw [options.eq_def]
  exact (if_neg hend).trans (if_neg hpad)

theorem firstOption_cons {tag : UInt8} {bytes : List UInt8} :
    firstOption f ((tag, bytes) :: opts) =
      if fieldOf tag = some f then some bytes else firstOption f opts := by
  unfold firstOption
  rw [List.find?_cons]
  split
  next hfirst =>
    rw [if_pos (by simpa using hfirst)]
    rfl
  next hfirst => rw [if_neg (by simpa using hfirst)]

/-- What the pairs of an area have to do with its options. -/
def PairsFit (cp : List UInt8) (opts : List (UInt8 × List UInt8)) : Prop :=
  Tagged cp ∧ ∀ f, (∀ p, firstPair f cp = some p → p.size ≤ p.rest.length) ∧
    (firstPair f cp).map Pair.bytes = firstOption f opts

/-- **In step, the first pairs are the first options.** -/
theorem pairsFit_of_inStep (h : InStep cp) (hopts : options cp = some opts)
    (hsizes : ∀ opt ∈ opts, ∀ f, fieldOf opt.1 = some f → Takes f opt.2.length) :
    PairsFit cp opts := by
  fun_induction InStep cp generalizing opts with
  | case1 =>
    rw [options] at hopts
    cases hopts
  | case2 tag => exact absurd h id
  | case3 size cp =>
    -- the end tag
    rw [options_end] at hopts
    cases hopts
    refine ⟨by rw [Tagged]; exact Or.inl rfl, fun f => ?_⟩
    have hnone : firstPair f (tagEnd :: size :: cp) = none := by
      rw [firstPair, pairs, if_pos rfl, List.find?_nil]
    rw [hnone]
    exact ⟨by rintro p ⟨⟩, rfl⟩
  | case4 size cp hend ih =>
    have hskip : ∀ f, ¬ (fieldOf tagPad = some f ∧ Takes f size.toNat) := by
      rintro f ⟨hf, -⟩
      cases hf
    rcases h with ⟨rfl, hrest⟩ | ⟨rfl, hshort⟩
    · rw [options_pad, options_pad] at hopts
      obtain ⟨htagged, hfirst⟩ := ih hrest hopts hsizes
      refine ⟨?_, fun f => ?_⟩
      · rw [Tagged]
        exact Or.inr htagged
      · rw [firstPair_cons hend, if_neg (hskip f)]
        exact hfirst f
    · -- the end tag is taken for the size of a pad
      rw [options_pad, options_end] at hopts
      cases hopts
      have hdrop : cp.drop tagEnd.toNat = [] := List.drop_eq_nil_of_le hshort
      refine ⟨?_, fun f => ?_⟩
      · rw [Tagged, hdrop, Tagged]
        exact Or.inr trivial
      · rw [firstPair_cons hend, if_neg (hskip f), hdrop, firstPair, pairs, List.find?_nil]
        exact ⟨by rintro p ⟨⟩, rfl⟩
  | case5 tag size cp hend hpad ih =>
    rw [options_cons hend hpad] at hopts
    split at hopts
    next hinside =>
      obtain ⟨rest, hrest, rfl⟩ := Option.map_eq_some_iff.mp hopts
      have hlength : (cp.take size.toNat).length = size.toNat := List.length_take_of_le hinside
      obtain ⟨htagged, hfirst⟩ := ih h hrest fun opt hopt =>
        hsizes opt (List.mem_cons_of_mem _ hopt)
      refine ⟨?_, fun f => ?_⟩
      · rw [Tagged]
        exact Or.inr htagged
      · rw [firstPair_cons hend, firstOption_cons]
        by_cases hf : fieldOf tag = some f
        · have htakes := hsizes _ List.mem_cons_self f hf
          rw [hlength] at htakes
          rw [if_pos ⟨hf, htakes⟩, if_pos hf]
          refine ⟨?_, rfl⟩
          rintro p ⟨⟩
          exact hinside
        · rw [if_neg fun hand => hf hand.1, if_neg hf]
          exact hfirst f
    next => cases hopts

/-- **Areas in step** whose options have the sizes of their fields are taken right. -/
theorem vendRfc1048_inStep (h : InStep (vend.drop 4)) (hopts : options (vend.drop 4) = some opts)
    (hsizes : ∀ opt ∈ opts, ∀ f, fieldOf opt.1 = some f → Takes f opt.2.length) :
    ∃ b', vendRfc1048 b vend = some b' ∧ ∀ f, b' f = (b f).or (firstOption f opts) := by
  obtain ⟨htagged, hfirst⟩ := pairsFit_of_inStep h hopts hsizes
  refine ⟨withPairs b (vend.drop 4), ?_, fun f => ?_⟩
  · unfold vendRfc1048
    rw [vendLoop_eq_some_iff]
    exact ⟨htagged, fun f _ => (hfirst f).1, rfl⟩
  · rw [withPairs, (hfirst f).2]

/-- A pad, the option of the subnet mask and the end tag. -/
def paddedVend : List UInt8 :=
  [99, 130, 83, 99, 0, 1, 4, 255, 255, 255, 0, 255] ++ List.replicate 52 0

/-- Behind a single pad the mask is not found. -/
theorem vendRfc1048_padded : ¬ VendRight (fun _ => none) paddedVend := by
  have hloop : vendRfc1048 (fun _ => none) paddedVend = some fun _ => none := by
    simp [vendRfc1048, paddedVend, vendLoop, setField, fieldOf, tagEnd]
  have hoptions : options (paddedVend.drop 4) = some [(1, [255, 255, 255, 0])] := by
    simp [paddedVend, options, tagEnd, tagPad]
  rintro ⟨b', hb', hright⟩
  rw [hloop] at hb'
  cases hb'
  exact absurd (hright _ hoptions .mask) (by decide)

end Pmon.Netio.Bootp
