import Pmon.Debug.Breakpoints
import Pmon.Lib.MipsTransfers

/-!
# The table of instructions

`distbl` of `pmon/arch/mips/disassemble.c`, in which an instruction is looked up, and the functions
that tell from its row whether it is a branch and where it goes.

## Key results

- `rows_complete`, `rows_sound`: the rows of branches and the formats of the processor.
- `mdBranchTarget_eq`: the address that is computed is that to which the processor goes.
-/

namespace Pmon.Debug

open Pmon.Lib

/-! ## §1 The table -/

/-- `TYPE`: the operands of an instruction. -/
inductive DisType where
  | rdRsRt | rtRsImm | off | rsRtOff | rsOff | none | rtRd | cofun | rdRt | rsRt | target | jalr
  | rs | rdRtSft | loadStore | rtImm | rd | rdRtRs | rdRs | rtRsSimm | rsSimm | rtSimm | jr | rtC0
  | rtC1 | rtCn | rtCc1 | ldstc1 | ldstcn | word | bpcode | cacheOp | cpOff | store | storec1
  | storecn | ftFsFdD | ftFsFdS | fsFdD | fsFdS | fsFdW | fsFdL | ftFsD | ftFsS | rtRdTo | rtCc1To
  | rtCnTo | rtC0To | rtC1To
  deriving DecidableEq

/-- The masks, codes and types of `distbl`. -/
def distbl : List (BitPattern 32 × DisType) := [
  -- special aliases for certain instructions
  (⟨0xffffffff, 0x00000000⟩, .none),             -- nop
  (⟨0xffe00000, 0x24000000⟩, .rtSimm),           -- li
  (⟨0xffe00000, 0x34000000⟩, .rtImm),            -- li
  (⟨0xfc1f07ff, 0x00000021⟩, .rdRs),             -- move
  (⟨0xfc1f07ff, 0x00000025⟩, .rdRs),             -- move
  (⟨0xffe007ff, 0x00000022⟩, .rdRt),             -- neg
  (⟨0xffe007ff, 0x00000023⟩, .rdRt),             -- negu
  (⟨0xfc1f07ff, 0x0000002d⟩, .rdRs),             -- dmove
  (⟨0xffe007ff, 0x0000002e⟩, .rdRt),             -- dneg
  (⟨0xffe007ff, 0x0000002f⟩, .rdRt),             -- dnegu
  (⟨0xfc1f07ff, 0x00000027⟩, .rdRs),             -- not
  (⟨0xffff0000, 0x10000000⟩, .off),              -- b
  (⟨0xffff0000, 0x04010000⟩, .off),              -- b
  (⟨0xffff0000, 0x04110000⟩, .off),              -- bal
  -- machine insns
  (⟨0xfc0007ff, 0x00000020⟩, .rdRsRt),           -- add
  (⟨0xfc000000, 0x20000000⟩, .rtRsSimm),         -- addi
  (⟨0xfc000000, 0x24000000⟩, .rtRsSimm),         -- addiu
  (⟨0xfc0007ff, 0x00000021⟩, .rdRsRt),           -- addu
  (⟨0xfc0007ff, 0x0000002c⟩, .rdRsRt),           -- dadd
  (⟨0xfc000000, 0x60000000⟩, .rtRsSimm),         -- daddi
  (⟨0xfc000000, 0x64000000⟩, .rtRsSimm),         -- daddiu
  (⟨0xfc0007ff, 0x0000002d⟩, .rdRsRt),           -- daddu
  (⟨0xfc0007ff, 0x00000024⟩, .rdRsRt),           -- and
  (⟨0xfc000000, 0x30000000⟩, .rtRsImm),          -- andi
  (⟨0xffff0000, 0x41000000⟩, .cpOff),            -- bc0f
  (⟨0xffff0000, 0x45000000⟩, .cpOff),            -- bc1f
  (⟨0xffff0000, 0x49000000⟩, .cpOff),            -- bc2f
  (⟨0xffff0000, 0x4d000000⟩, .cpOff),            -- bc3f
  (⟨0xffff0000, 0x41010000⟩, .cpOff),            -- bc0t
  (⟨0xffff0000, 0x45010000⟩, .cpOff),            -- bc1t
  (⟨0xffff0000, 0x49010000⟩, .cpOff),            -- bc2t
  (⟨0xffff0000, 0x4d010000⟩, .cpOff),            -- bc3t
  (⟨0xffff0000, 0x41020000⟩, .cpOff),            -- bc0fl
  (⟨0xffff0000, 0x45020000⟩, .cpOff),            -- bc1fl
  (⟨0xffff0000, 0x49020000⟩, .cpOff),            -- bc2fl
  (⟨0xffff0000, 0x4d020000⟩, .cpOff),            -- bc3fl
  (⟨0xffff0000, 0x41030000⟩, .cpOff),            -- bc0tl
  (⟨0xffff0000, 0x45030000⟩, .cpOff),            -- bc1tl
  (⟨0xffff0000, 0x49030000⟩, .cpOff),            -- bc2tl
  (⟨0xffff0000, 0x4d030000⟩, .cpOff),            -- bc3tl
  (⟨0xfc000000, 0x10000000⟩, .rsRtOff),          -- beq
  (⟨0xfc000000, 0x14000000⟩, .rsRtOff),          -- bne
  (⟨0xfc1f0000, 0x18000000⟩, .rsOff),            -- blez
  (⟨0xfc1f0000, 0x1c000000⟩, .rsOff),            -- bgtz
  (⟨0xfc000000, 0x50000000⟩, .rsRtOff),          -- beql
  (⟨0xfc000000, 0x54000000⟩, .rsRtOff),          -- bnel
  (⟨0xfc1f0000, 0x58000000⟩, .rsOff),            -- blezl
  (⟨0xfc1f0000, 0x5c000000⟩, .rsOff),            -- bgtzl
  (⟨0xfc1f0000, 0x04000000⟩, .rsOff),            -- bltz
  (⟨0xfc1f0000, 0x04010000⟩, .rsOff),            -- bgez
  (⟨0xfc1f0000, 0x04020000⟩, .rsOff),            -- bltzl
  (⟨0xfc1f0000, 0x04030000⟩, .rsOff),            -- bgezl
  (⟨0xfc1f0000, 0x04100000⟩, .rsOff),            -- bltzal
  (⟨0xfc1f0000, 0x04110000⟩, .rsOff),            -- bgezal
  (⟨0xfc1f0000, 0x04120000⟩, .rsOff),            -- bltzall
  (⟨0xfc1f0000, 0x04130000⟩, .rsOff),            -- bgezall
  (⟨0xfc00003f, 0x0000000d⟩, .bpcode),           -- break
  (⟨0xfc000000, 0xbc000000⟩, .cacheOp),          -- cache
  (⟨0xffe007ff, 0x40400000⟩, .rtRd),             -- cfc0
  (⟨0xffe007ff, 0x44400000⟩, .rtCc1),            -- cfc1
  (⟨0xffe007ff, 0x48400000⟩, .rtCn),             -- cfc2
  (⟨0xffe007ff, 0x4c400000⟩, .rtCn),             -- cfc3
  (⟨0xffffffff, 0x42000008⟩, .none),             -- tlbp
  (⟨0xffffffff, 0x42000001⟩, .none),             -- tlbr
  (⟨0xffffffff, 0x42000002⟩, .none),             -- tlbwi
  (⟨0xffffffff, 0x42000006⟩, .none),             -- tlbwr
  (⟨0xffffffff, 0x42000010⟩, .none),             -- rfe
  (⟨0xffffffff, 0x42000018⟩, .none),             -- eret
  (⟨0xfe000000, 0x42000000⟩, .cofun),            -- cop0
  (⟨0xfee0003f, 0x46000000⟩, .ftFsFdS),          -- add.s
  (⟨0xfee0003f, 0x46200000⟩, .ftFsFdD),          -- add.d
  (⟨0xfee0003f, 0x46000001⟩, .ftFsFdS),          -- sub.s
  (⟨0xfee0003f, 0x46200001⟩, .ftFsFdD),          -- sub.d
  (⟨0xfee0003f, 0x46000002⟩, .ftFsFdS),          -- mul.s
  (⟨0xfee0003f, 0x46200002⟩, .ftFsFdD),          -- mul.d
  (⟨0xfee0003f, 0x46000003⟩, .ftFsFdS),          -- div.s
  (⟨0xfee0003f, 0x46200003⟩, .ftFsFdD),          -- div.d
  (⟨0xfee0003f, 0x46000005⟩, .fsFdS),            -- abs.s
  (⟨0xfee0003f, 0x46200005⟩, .fsFdD),            -- abs.d
  (⟨0xfee0003f, 0x46000006⟩, .fsFdS),            -- mov.s
  (⟨0xfee0003f, 0x46200006⟩, .fsFdD),            -- mov.d
  (⟨0xfee0003f, 0x46000007⟩, .fsFdS),            -- neg.s
  (⟨0xfee0003f, 0x46200007⟩, .fsFdD),            -- neg.d
  (⟨0xfee0003f, 0x46200004⟩, .fsFdD),            -- sqrt.d
  (⟨0xfee0003f, 0x46000004⟩, .fsFdS),            -- sqrt.s
  (⟨0xfee0003f, 0x46000030⟩, .ftFsS),            -- c.f.s
  (⟨0xfee0003f, 0x46200030⟩, .ftFsD),            -- c.f.d
  (⟨0xfee0003f, 0x46000031⟩, .ftFsS),            -- c.un.s
  (⟨0xfee0003f, 0x46200031⟩, .ftFsD),            -- c.un.d
  (⟨0xfee0003f, 0x46000032⟩, .ftFsS),            -- c.eq.s
  (⟨0xfee0003f, 0x46200032⟩, .ftFsD),            -- c.eq.d
  (⟨0xfee0003f, 0x46000033⟩, .ftFsS),            -- c.ueq.s
  (⟨0xfee0003f, 0x46200033⟩, .ftFsD),            -- c.ueq.d
  (⟨0xfee0003f, 0x46000034⟩, .ftFsS),            -- c.olt.s
  (⟨0xfee0003f, 0x46200034⟩, .ftFsD),            -- c.olt.d
  (⟨0xfee0003f, 0x46000035⟩, .ftFsS),            -- c.ult.s
  (⟨0xfee0003f, 0x46200035⟩, .ftFsD),            -- c.ult.d
  (⟨0xfee0003f, 0x46000036⟩, .ftFsS),            -- c.ole.s
  (⟨0xfee0003f, 0x46200036⟩, .ftFsD),            -- c.ole.d
  (⟨0xfee0003f, 0x46000037⟩, .ftFsS),            -- c.ule.s
  (⟨0xfee0003f, 0x46200037⟩, .ftFsD),            -- c.ule.d
  (⟨0xfee0003f, 0x46000038⟩, .ftFsS),            -- c.sf.s
  (⟨0xfee0003f, 0x46200038⟩, .ftFsD),            -- c.sf.d
  (⟨0xfee0003f, 0x46000039⟩, .ftFsS),            -- c.ngle.s
  (⟨0xfee0003f, 0x46200039⟩, .ftFsD),            -- c.ngle.d
  (⟨0xfee0003f, 0x4600003a⟩, .ftFsS),            -- c.seq.s
  (⟨0xfee0003f, 0x4620003a⟩, .ftFsD),            -- c.seq.d
  (⟨0xfee0003f, 0x4600003b⟩, .ftFsS),            -- c.ngl.s
  (⟨0xfee0003f, 0x4620003b⟩, .ftFsD),            -- c.ngl.d
  (⟨0xfee0003f, 0x4600003c⟩, .ftFsS),            -- c.lt.s
  (⟨0xfee0003f, 0x4620003c⟩, .ftFsD),            -- c.lt.d
  (⟨0xfee0003f, 0x4600003d⟩, .ftFsS),            -- c.nge.s
  (⟨0xfee0003f, 0x4620003d⟩, .ftFsD),            -- c.nge.d
  (⟨0xfee0003f, 0x4600003e⟩, .ftFsS),            -- c.le.s
  (⟨0xfee0003f, 0x4620003e⟩, .ftFsD),            -- c.le.d
  (⟨0xfee0003f, 0x4600003f⟩, .ftFsS),            -- c.ngt.s
  (⟨0xfee0003f, 0x4620003f⟩, .ftFsD),            -- c.ngt.d
  (⟨0xfee0003f, 0x46800020⟩, .fsFdW),            -- cvt.s.w
  (⟨0xfee0003f, 0x46a00020⟩, .fsFdL),            -- cvt.s.l
  (⟨0xfee0003f, 0x46200020⟩, .fsFdD),            -- cvt.s.d
  (⟨0xfee0003f, 0x46000021⟩, .fsFdS),            -- cvt.d.s
  (⟨0xfee0003f, 0x46800021⟩, .fsFdW),            -- cvt.d.w
  (⟨0xfee0003f, 0x46a00021⟩, .fsFdL),            -- cvt.d.l
  (⟨0xfee0003f, 0x46200024⟩, .fsFdD),            -- cvt.w.d
  (⟨0xfee0003f, 0x46000024⟩, .fsFdS),            -- cvt.w.s
  (⟨0xfee0003f, 0x46200025⟩, .fsFdD),            -- cvt.l.d
  (⟨0xfee0003f, 0x46000025⟩, .fsFdS),            -- cvt.l.s
  (⟨0xffff003f, 0x4620000a⟩, .fsFdL),            -- ceil.l.d
  (⟨0xffff003f, 0x4600000a⟩, .fsFdL),            -- ceil.l.s
  (⟨0xffff003f, 0x4620000e⟩, .fsFdW),            -- ceil.w.d
  (⟨0xffff003f, 0x4600000e⟩, .fsFdW),            -- ceil.w.s
  (⟨0xffff003f, 0x4620000b⟩, .fsFdL),            -- floor.l.d
  (⟨0xffff003f, 0x4600000b⟩, .fsFdL),            -- floor.l.s
  (⟨0xffff003f, 0x4620000f⟩, .fsFdW),            -- floor.w.d
  (⟨0xffff003f, 0x4600000f⟩, .fsFdW),            -- floor.w.s
  (⟨0xffff003f, 0x46200008⟩, .fsFdL),            -- round.l.d
  (⟨0xffff003f, 0x46000008⟩, .fsFdL),            -- round.l.s
  (⟨0xffff003f, 0x4620000c⟩, .fsFdW),            -- round.w.d
  (⟨0xffff003f, 0x4600000c⟩, .fsFdW),            -- round.w.s
  (⟨0xffff003f, 0x46200009⟩, .fsFdL),            -- trunc.l.d
  (⟨0xffff003f, 0x46000009⟩, .fsFdL),            -- trunc.l.s
  (⟨0xffff003f, 0x4620000d⟩, .fsFdW),            -- trunc.w.d
  (⟨0xffff003f, 0x4600000d⟩, .fsFdW),            -- trunc.w.s
  (⟨0xfe000000, 0x46000000⟩, .cofun),            -- cop1
  (⟨0xfe000000, 0x4a000000⟩, .cofun),            -- cop2
  (⟨0xfe000000, 0x4e000000⟩, .cofun),            -- cop3
  (⟨0xffe007ff, 0x40c00000⟩, .rtRdTo),           -- ctc0
  (⟨0xffe007ff, 0x44c00000⟩, .rtCc1To),          -- ctc1
  (⟨0xffe007ff, 0x48c00000⟩, .rtCnTo),           -- ctc2
  (⟨0xffe007ff, 0x4cc00000⟩, .rtCnTo),           -- ctc3
  (⟨0xfc00ffff, 0x0000001a⟩, .rsRt),             -- div
  (⟨0xfc00ffff, 0x0000001b⟩, .rsRt),             -- divu
  (⟨0xfc00ffff, 0x0000001e⟩, .rsRt),             -- ddiv
  (⟨0xfc00ffff, 0x0000001f⟩, .rsRt),             -- ddivu
  (⟨0xfc000000, 0x08000000⟩, .target),           -- j
  (⟨0xfc000000, 0x0c000000⟩, .target),           -- jal
  (⟨0xfc1f07ff, 0x00000009⟩, .jalr),             -- jalr
  (⟨0xfc1fffff, 0x00000008⟩, .jr),               -- jr
  (⟨0xfc000000, 0x3c000000⟩, .rtImm),            -- lui
  (⟨0xfc000000, 0x80000000⟩, .loadStore),        -- lb
  (⟨0xfc000000, 0x90000000⟩, .loadStore),        -- lbu
  (⟨0xfc000000, 0x84000000⟩, .loadStore),        -- lh
  (⟨0xfc000000, 0x94000000⟩, .loadStore),        -- lhu
  (⟨0xfc000000, 0x8c000000⟩, .loadStore),        -- lw
  (⟨0xfc000000, 0x88000000⟩, .loadStore),        -- lwl
  (⟨0xfc000000, 0x98000000⟩, .loadStore),        -- lwr
  (⟨0xfc000000, 0x9c000000⟩, .loadStore),        -- lwu
  (⟨0xfc000000, 0x68000000⟩, .loadStore),        -- ldl
  (⟨0xfc000000, 0x6c000000⟩, .loadStore),        -- ldr
  (⟨0xfc000000, 0xc0000000⟩, .loadStore),        -- ll
  (⟨0xfc000000, 0xc4000000⟩, .ldstc1),           -- lwc1
  (⟨0xfc000000, 0xc8000000⟩, .ldstcn),           -- lwc2
  (⟨0xfc000000, 0xcc000000⟩, .ldstcn),           -- lwc3
  (⟨0xfc000000, 0xd0000000⟩, .loadStore),        -- lld
  (⟨0xfc000000, 0xd4000000⟩, .ldstc1),           -- ldc1
  (⟨0xfc000000, 0xd8000000⟩, .ldstcn),           -- ldc2
  (⟨0xfc000000, 0xdc000000⟩, .loadStore),        -- ld
  (⟨0xffe007ff, 0x40000000⟩, .rtC0),             -- mfc0
  (⟨0xffe007ff, 0x44000000⟩, .rtC1),             -- mfc1
  (⟨0xffe007ff, 0x48000000⟩, .rtCn),             -- mfc2
  (⟨0xffe007ff, 0x4c000000⟩, .rtCn),             -- mfc3
  (⟨0xffe007ff, 0x40200000⟩, .rtC0),             -- dmfc0
  (⟨0xffe007ff, 0x44200000⟩, .rtC1),             -- dmfc1
  (⟨0xffe007ff, 0x48200000⟩, .rtCn),             -- dmfc2
  (⟨0xffe007ff, 0x4c200000⟩, .rtCn),             -- dmfc3
  (⟨0xffe007ff, 0x40800000⟩, .rtC0To),           -- mtc0
  (⟨0xffe007ff, 0x44800000⟩, .rtC1To),           -- mtc1
  (⟨0xffe007ff, 0x48800000⟩, .rtCnTo),           -- mtc2
  (⟨0xffe007ff, 0x4c800000⟩, .rtCnTo),           -- mtc3
  (⟨0xffe007ff, 0x40a00000⟩, .rtC0To),           -- dmtc0
  (⟨0xffe007ff, 0x44a00000⟩, .rtC1To),           -- dmtc1
  (⟨0xffe007ff, 0x48a00000⟩, .rtCnTo),           -- dmtc2
  (⟨0xffe007ff, 0x4ca00000⟩, .rtCnTo),           -- dmtc3
  (⟨0xffff07ff, 0x00000010⟩, .rd),               -- mfhi
  (⟨0xffff07ff, 0x00000012⟩, .rd),               -- mflo
  (⟨0xfc1fffff, 0x00000011⟩, .rs),               -- mthi
  (⟨0xfc1fffff, 0x00000013⟩, .rs),               -- mtlo
  (⟨0xfc00ffff, 0x00000018⟩, .rsRt),             -- mult
  (⟨0xfc00ffff, 0x00000019⟩, .rsRt),             -- multu
  (⟨0xfc00ffff, 0x0000001c⟩, .rsRt),             -- dmult
  (⟨0xfc00ffff, 0x0000001d⟩, .rsRt),             -- dmultu
  -- R4100:
  (⟨0xfc00ffff, 0x00000028⟩, .rsRt),             -- madd16
  (⟨0xfc00ffff, 0x00000020⟩, .rsRt),             -- dmadd16
  (⟨0xffffffff, 0x42000021⟩, .none),             -- standby
  (⟨0xffffffff, 0x42000022⟩, .none),             -- suspend
  (⟨0xffffffff, 0x42000023⟩, .none),             -- hibernate
  (⟨0xfc0007ff, 0x00000027⟩, .rdRsRt),           -- nor
  (⟨0xfc0007ff, 0x00000025⟩, .rdRsRt),           -- or
  (⟨0xfc000000, 0x34000000⟩, .rtRsImm),          -- ori
  (⟨0xfc000000, 0xa0000000⟩, .store),            -- sb
  (⟨0xfc000000, 0xa4000000⟩, .store),            -- sh
  (⟨0xfc000000, 0xa8000000⟩, .store),            -- swl
  (⟨0xfc000000, 0xac000000⟩, .store),            -- sw
  (⟨0xfc000000, 0xb0000000⟩, .store),            -- sdl
  (⟨0xfc000000, 0xb4000000⟩, .store),            -- sdr
  (⟨0xfc000000, 0xb8000000⟩, .store),            -- swr
  (⟨0xfc000000, 0xe0000000⟩, .store),            -- sc
  (⟨0xfc000000, 0xe4000000⟩, .storec1),          -- swc1
  (⟨0xfc000000, 0xe8000000⟩, .storecn),          -- swc2
  (⟨0xfc000000, 0xec000000⟩, .storecn),          -- swc3
  (⟨0xfc000000, 0xf0000000⟩, .store),            -- scd
  (⟨0xfc000000, 0xf4000000⟩, .storec1),          -- sdc1
  (⟨0xfc000000, 0xf8000000⟩, .storecn),          -- sdc2
  (⟨0xfc000000, 0xfc000000⟩, .store),            -- sd
  (⟨0xffe0003f, 0x00000000⟩, .rdRtSft),          -- sll
  (⟨0xfc0007ff, 0x00000004⟩, .rdRtRs),           -- sllv
  (⟨0xffe0003f, 0x00000038⟩, .rdRtSft),          -- dsll
  (⟨0xfc0007ff, 0x00000014⟩, .rdRtRs),           -- dsllv
  (⟨0xfc0007ff, 0x0000003c⟩, .rdRtRs),           -- dsll32
  (⟨0xfc0007ff, 0x0000002a⟩, .rdRsRt),           -- slt
  (⟨0xfc000000, 0x28000000⟩, .rtRsSimm),         -- slti
  (⟨0xfc000000, 0x2c000000⟩, .rtRsSimm),         -- sltiu
  (⟨0xfc0007ff, 0x0000002b⟩, .rdRsRt),           -- sltu
  (⟨0xffe0003f, 0x00000003⟩, .rdRtSft),          -- sra
  (⟨0xfc0007ff, 0x00000007⟩, .rdRtRs),           -- srav
  (⟨0xffe0003f, 0x0000003b⟩, .rdRtSft),          -- dsra
  (⟨0xfc0007ff, 0x00000017⟩, .rdRtRs),           -- dsrav
  (⟨0xfc0007ff, 0x0000003f⟩, .rdRtRs),           -- dsra32
  (⟨0xffe0003f, 0x00000002⟩, .rdRtSft),          -- srl
  (⟨0xfc0007ff, 0x00000006⟩, .rdRtRs),           -- srlv
  (⟨0xffe0003f, 0x0000003a⟩, .rdRtSft),          -- dsrl
  (⟨0xfc0007ff, 0x00000016⟩, .rdRtRs),           -- dsrlv
  (⟨0xfc0007ff, 0x0000003e⟩, .rdRtRs),           -- dsrl32
  (⟨0xfc0007ff, 0x00000022⟩, .rdRsRt),           -- sub
  (⟨0xfc0007ff, 0x00000023⟩, .rdRsRt),           -- subu
  (⟨0xfc0007ff, 0x0000002e⟩, .rdRsRt),           -- dsub
  (⟨0xfc0007ff, 0x0000002f⟩, .rdRsRt),           -- dsubu
  (⟨0xfc1f0000, 0x040c0000⟩, .rsSimm),           -- teqi
  (⟨0xfc00003f, 0x00000034⟩, .rsRt),             -- teq
  (⟨0xfc1f0000, 0x04080000⟩, .rsSimm),           -- tgei
  (⟨0xfc00003f, 0x00000030⟩, .rsRt),             -- tge
  (⟨0xfc1f0000, 0x04090000⟩, .rsSimm),           -- tgeiu
  (⟨0xfc00003f, 0x00000031⟩, .rsRt),             -- tgeu
  (⟨0xfc1f0000, 0x040a0000⟩, .rsSimm),           -- tlti
  (⟨0xfc00003f, 0x00000032⟩, .rsRt),             -- tlt
  (⟨0xfc1f0000, 0x040b0000⟩, .rsSimm),           -- tltiu
  (⟨0xfc00003f, 0x00000033⟩, .rsRt),             -- tltu
  (⟨0xfc1f0000, 0x040e0000⟩, .rsSimm),           -- tnei
  (⟨0xfc00003f, 0x00000036⟩, .rsRt),             -- tne
  (⟨0xffffffff, 0x0000000f⟩, .none),             -- sync
  (⟨0xffffffff, 0x0000000c⟩, .none),             -- syscall
  (⟨0xfc0007ff, 0x00000026⟩, .rdRsRt),           -- xor
  (⟨0xfc000000, 0x38000000⟩, .rtRsImm),          -- xori
  -- must be last !! never be move/remove
  (⟨0x00000000, 0x00000000⟩, .word)              -- .word
]

/-- `get_distbl`: the type of the first row that matches. -/
def getDistbl (bits : BitVec 32) : DisType := (lookup distbl bits).getD .word

/-! ## §2 What the row tells -/

/-- The types that `md_is_branch` knows. -/
def DisType.isBranch : DisType → Bool
  | .off | .rsRtOff | .rsOff | .cpOff | .target | .jalr | .jr => true
  | _ => false

/-- `md_is_branch` of the instruction. -/
def mdIsBranch (inst : BitVec 32) : Bool := (getDistbl inst).isBranch

/-- `md_is_cond_branch`. -/
def mdIsCondBranch (inst : BitVec 32) : Bool :=
  match getDistbl inst with
  | .rsRtOff | .rsOff | .cpOff => true
  | _ => false

/-- `md_is_jr`. -/
def mdIsJr (inst : BitVec 32) : Bool := getDistbl inst == .jr

/-- `md_branch_target`, with the registers of the client. -/
def mdBranchTarget (reg : BitVec 5 → BitVec 64) (adr inst : BitVec 32) : BitVec 32 :=
  match getDistbl inst with
  | .off | .rsRtOff | .rsOff | .cpOff =>
    let val := inst &&& 0xffff
    let val := if val &&& 0x8000 ≠ 0 then val ||| 0xffff0000 else val
    adr + 4#32 + val <<< 2
  | .target =>
    let val := inst &&& 0x3ffffff
    (adr + 4#32) &&& 0xf0000000#32 ||| val <<< 2
  | .jalr | .jr => (reg ((inst >>> 21).setWidth 5)).setWidth 32
  | _ => 0

/-- `getfield`. -/
def getfield (w : BitVec 32) (s p : ℕ) : BitVec 32 :=
  (w &&& ((1 <<< s - 1) <<< p)) >>> p

/-- `md_is_call`. -/
def mdIsCall (inst : BitVec 32) : Bool :=
  if getfield inst 6 26 = 0 then getfield inst 6 0 = 9
  else if getfield inst 6 26 = 1 then getfield inst 2 19 = 2
  else getfield inst 6 26 = 3

/-- What the machine code says about the instruction at an address. -/
def insnAt (reg : BitVec 5 → BitVec 64) (isWriteable : Bool) (getlink : ℕ) (adr inst : BitVec 32) :
    Insn where
  isBranch := mdIsBranch inst
  isCondBranch := mdIsCondBranch inst
  isCall := mdIsCall inst
  isJr := mdIsJr inst
  branchTarget := (mdBranchTarget reg adr inst).toNat
  isWriteable := isWriteable
  getlink := getlink

/-! ## §3 The rows and the formats -/

open Mips (formats pattern Holds transferOf)

/-- How the table may have a transfer.  An unconditional branch compares register 0. -/
def Fits (row : BitPattern 32 × DisType) : Mips.Transfer → Prop
  | .branch .eq =>
    row.2 = .rsRtOff ∨ row.2 = .off ∧ row.1.Implies (Mips.rs 0) ∧ row.1.Implies (Mips.rt 0)
  | .branch .ne => row.2 = .rsRtOff
  | .branch .gez => row.2 = .rsOff ∨ row.2 = .off ∧ row.1.Implies (Mips.rs 0)
  | .branch (.cop _) => row.2 = .cpOff
  | .branch _ => row.2 = .rsOff
  | .jump => row.2 = .target
  | .register => row.2 = .jalr ∨ row.2 = .jr
  | .eret => row.2 = .none

instance (row : BitPattern 32 × DisType) : ∀ t, Decidable (Fits row t)
  | .branch .eq => inferInstanceAs (Decidable (_ ∨ _ ∧ _ ∧ _))
  | .branch .ne => inferInstanceAs (Decidable (_ = _))
  | .branch .gez => inferInstanceAs (Decidable (_ ∨ _ ∧ _))
  | .branch .lez => inferInstanceAs (Decidable (_ = _))
  | .branch .gtz => inferInstanceAs (Decidable (_ = _))
  | .branch .ltz => inferInstanceAs (Decidable (_ = _))
  | .branch (.cop _) => inferInstanceAs (Decidable (_ = _))
  | .jump => inferInstanceAs (Decidable (_ = _))
  | .register => inferInstanceAs (Decidable (_ ∨ _))
  | .eret => inferInstanceAs (Decidable (_ = _))

/-- **Whatever the words of a format are taken for, it is a transfer of that kind.** -/
theorem rows_complete :
    ∀ format ∈ formats, ∀ row ∈ candidates (pattern format.1) distbl, Fits row format.2 := by
  decide +kernel

/-- **The rows of branches have words of the formats only.** -/
theorem rows_sound :
    ∀ row ∈ distbl, row.2.isBranch → ∃ format ∈ formats, ∀ p ∈ format.1, row.1.Implies p := by
  decide +kernel

/-- The last row takes every word. -/
theorem lookup_distbl (inst : BitVec 32) : lookup distbl inst = some (getDistbl inst) := by
  unfold getDistbl
  cases h : lookup distbl inst with
  | some t => rfl
  | none =>
    have hlast : ((⟨0, 0⟩ : BitPattern 32), DisType.word) ∈ distbl := by decide
    have hnone := List.find?_eq_none.mp (Option.map_eq_none_iff.mp h) _ hlast
    simp [BitPattern.Matches] at hnone

/-- The row of a word of a format. -/
theorem exists_fits {inst : BitVec 32} {t : Mips.Transfer} (h : transferOf inst = some t) :
    ∃ q : BitPattern 32, q.Matches inst ∧ Fits (q, getDistbl inst) t := by
  obtain ⟨format, hformat, hholds⟩ := Mips.transferOf_eq_some h
  obtain ⟨q, hq, hmatches⟩ :=
    lookup_mem_candidates (Mips.matches_pattern hholds) (lookup_distbl inst)
  exact ⟨q, hmatches, rows_complete _ hformat _ hq⟩

/-- The row of any other word. -/
theorem mdIsBranch_eq_false {inst : BitVec 32} (h : transferOf inst = none) :
    mdIsBranch inst = false := by
  obtain ⟨q, hq, hmatches⟩ := lookup_mem (lookup_distbl inst)
  by_contra hbranch
  obtain ⟨format, hformat, himplies⟩ := rows_sound _ hq (by simpa [mdIsBranch] using hbranch)
  exact Mips.transferOf_eq_none h format hformat fun p hp => (himplies p hp).matches hmatches

/-! ## §4 Targets -/

/-- A mask of the low bits leaves the low field. -/
theorem and_lowMask (n : ℕ) (x : BitVec 32) :
    x &&& (BitVec.allOnes n).setWidth 32 = (x.extractLsb' 0 n).setWidth 32 := by
  apply BitVec.eq_of_getLsbD_eq
  intro i hi
  simp only [BitVec.getLsbD_and, BitVec.getLsbD_setWidth, BitVec.getLsbD_allOnes,
    BitVec.getLsbD_extractLsb', Nat.zero_add]
  simp [hi, Bool.and_comm]

/-- The bit that is tested is the sign of the field. -/
theorem sign_eq (inst : BitVec 32) :
    (inst &&& 0xffff) &&& 0x8000 ≠ 0 ↔ (inst.extractLsb' 0 16).msb = true := by
  rw [BitVec.and_assoc, show (0xffff : BitVec 32) &&& 0x8000 = BitVec.twoPow 32 15 by decide,
    BitVec.and_twoPow, BitVec.msb_eq_getLsbD_last, BitVec.getLsbD_extractLsb']
  cases inst.getLsbD 15 <;> simp [BitVec.twoPow]

/-- The sign of the offset is put in by hand. -/
theorem offset_eq (inst : BitVec 32) :
    (if (inst &&& 0xffff) &&& 0x8000 ≠ 0 then (inst &&& 0xffff) ||| 0xffff0000
      else inst &&& 0xffff) = (inst.extractLsb' 0 16).signExtend 32 := by
  simp only [sign_eq]
  rw [show (0xffff : BitVec 32) = (BitVec.allOnes 16).setWidth 32 by decide, and_lowMask]
  split
  · rename_i hneg
    apply BitVec.eq_of_getLsbD_eq
    intro i hi
    rw [show (0xffff0000 : BitVec 32) = ~~~(BitVec.allOnes 16).setWidth 32 by decide]
    rw [BitVec.getLsbD_signExtend, hneg]
    simp only [BitVec.getLsbD_or, BitVec.getLsbD_setWidth, BitVec.getLsbD_not,
      BitVec.getLsbD_allOnes]
    by_cases hfield : i < 16
    · simp [hi, hfield]
    · simp [hi, hfield]
  · rename_i hpos
    rw [BitVec.signExtend_eq_setWidth_of_msb_false (by simpa using hpos)]

/-- `RS_`. -/
theorem rs_eq (inst : BitVec 32) : (inst >>> 21).setWidth 5 = inst.extractLsb' 21 5 := rfl

/-- **The target of a branch or jump.** -/
theorem mdBranchTarget_eq {inst pc epc : BitVec 32} {regs : Mips.Regs} {t : Mips.Transfer}
    (h : transferOf inst = some t) (ht : t ≠ .eret) :
    mdBranchTarget regs.value pc inst = Mips.target t inst pc regs epc := by
  obtain ⟨q, -, hfits⟩ := exists_fits h
  have hmask : (0x3ffffff : BitVec 32) = (BitVec.allOnes 26).setWidth 32 := by decide
  unfold mdBranchTarget
  dsimp only
  rw [offset_eq, hmask, and_lowMask, rs_eq]
  cases t with
  | branch c =>
    cases c with
    | eq | gez =>
      obtain hrow | ⟨hrow, -⟩ := hfits
      · rw [show getDistbl inst = _ from hrow]
        rfl
      · rw [show getDistbl inst = _ from hrow]
        rfl
    | _ => rw [show getDistbl inst = _ from hfits]; rfl
  | jump => rw [show getDistbl inst = _ from hfits]; rfl
  | register => obtain hrow | hrow := hfits <;> rw [show getDistbl inst = _ from hrow] <;> rfl
  | eret => exact absurd rfl ht

end Pmon.Debug
