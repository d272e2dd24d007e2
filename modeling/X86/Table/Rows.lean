import X86.Table.Row

/-!
# The instruction forms

The rows of the selection table, by family. The names of the forms tell the operands: `GPR8` and
`GPRv` are general purpose registers of 8 bits and of the operand size, `MEMb` and `MEMv` memory,
`IMMb` and `IMMz` immediate values, `AL` and `OrAX` the accumulator, `CL` and `ONE` shift counts.
A number behind them tells encodings of one form apart.
-/

namespace X86.Rows

/-- The forms that ADD, OR, ADC, SBB, AND, SUB and XOR share. The digit selects the operation in
the encodings with an immediate value, the numbers are the opcodes between registers. -/
def arithmetic (mn : String) (op : Op) (digit code₀ code₁ code₂ code₃ : String) : List Row := [
  { stem := mn ++ "_MEMb_IMMb_80r" ++ digit, op, shape := [.mw, .m, .i], sizes := .byte },
  { stem := mn ++ "_GPR8_IMMb_80r" ++ digit, op, shape := [.rw, .r, .i], sizes := .byte },
  { stem := mn ++ "_MEMv_IMMz", op, shape := [.mw, .m, .i], sizes := .words },
  { stem := mn ++ "_GPRv_IMMz", op, shape := [.rw, .r, .i], sizes := .words },
  { stem := mn ++ "_MEMb_IMMb_82r" ++ digit, op, shape := [.mw, .m, .i], sizes := .byte,
    mode := .legacy },
  { stem := mn ++ "_GPR8_IMMb_82r" ++ digit, op, shape := [.rw, .r, .i], sizes := .byte,
    mode := .legacy },
  { stem := mn ++ "_MEMv_IMMb", op, shape := [.mw, .m, .i], sizes := .words },
  { stem := mn ++ "_GPRv_IMMb", op, shape := [.rw, .r, .i], sizes := .words },
  { stem := mn ++ "_MEMb_GPR8", op, shape := [.mw, .m, .r], sizes := .byte },
  { stem := mn ++ "_GPR8_GPR8_" ++ code₀, op, shape := [.rw, .r, .r], sizes := .byte },
  { stem := mn ++ "_MEMv_GPRv", op, shape := [.mw, .m, .r], sizes := .words },
  { stem := mn ++ "_GPRv_GPRv_" ++ code₁, op, shape := [.rw, .r, .r], sizes := .words },
  { stem := mn ++ "_GPR8_MEMb", op, shape := [.rw, .r, .m], sizes := .byte },
  { stem := mn ++ "_GPR8_GPR8_" ++ code₂, op, shape := [.rw, .r, .r], sizes := .byte },
  { stem := mn ++ "_GPRv_MEMv", op, shape := [.rw, .r, .m], sizes := .words },
  { stem := mn ++ "_GPRv_GPRv_" ++ code₃, op, shape := [.rw, .r, .r], sizes := .words },
  { stem := mn ++ "_AL_IMMb", op, shape := [.rw, .r, .i], sizes := .byte },
  { stem := mn ++ "_OrAX_IMMz", op, shape := [.rw, .r, .i], sizes := .words }]

/-- Comparisons, which have no destination. -/
def comparison : List Row := [
  { stem := "CMP_MEMb_IMMb_80r7", op := .cmp, shape := [.m, .i], sizes := .byte },
  { stem := "CMP_GPR8_IMMb_80r7", op := .cmp, shape := [.r, .i], sizes := .byte },
  { stem := "CMP_MEMv_IMMz", op := .cmp, shape := [.m, .i], sizes := .words },
  { stem := "CMP_GPRv_IMMz", op := .cmp, shape := [.r, .i], sizes := .words },
  { stem := "CMP_MEMb_IMMb_82r7", op := .cmp, shape := [.m, .i], sizes := .byte,
    mode := .legacy },
  { stem := "CMP_GPR8_IMMb_82r7", op := .cmp, shape := [.r, .i], sizes := .byte,
    mode := .legacy },
  { stem := "CMP_MEMv_IMMb", op := .cmp, shape := [.m, .i], sizes := .words },
  { stem := "CMP_GPRv_IMMb", op := .cmp, shape := [.r, .i], sizes := .words },
  { stem := "CMP_MEMb_GPR8", op := .cmp, shape := [.m, .r], sizes := .byte },
  { stem := "CMP_GPR8_GPR8_38", op := .cmp, shape := [.r, .r], sizes := .byte },
  { stem := "CMP_MEMv_GPRv", op := .cmp, shape := [.m, .r], sizes := .words },
  { stem := "CMP_GPRv_GPRv_39", op := .cmp, shape := [.r, .r], sizes := .words },
  { stem := "CMP_GPR8_GPR8_3A", op := .cmp, shape := [.r, .r], sizes := .byte },
  { stem := "CMP_GPR8_MEMb", op := .cmp, shape := [.r, .m], sizes := .byte },
  { stem := "CMP_GPRv_GPRv_3B", op := .cmp, shape := [.r, .r], sizes := .words },
  { stem := "CMP_GPRv_MEMv", op := .cmp, shape := [.r, .m], sizes := .words },
  { stem := "CMP_AL_IMMb", op := .cmp, shape := [.r, .i], sizes := .byte },
  { stem := "CMP_OrAX_IMMz", op := .cmp, shape := [.r, .i], sizes := .words }]

/-- Bit tests, which have no destination. -/
def bitTest : List Row := [
  { stem := "TEST_MEMb_IMMb_F6r0", op := .test, shape := [.m, .i], sizes := .byte },
  { stem := "TEST_MEMb_IMMb_F6r1", op := .test, shape := [.m, .i], sizes := .byte },
  { stem := "TEST_GPR8_IMMb_F6r0", op := .test, shape := [.r, .i], sizes := .byte },
  { stem := "TEST_GPR8_IMMb_F6r1", op := .test, shape := [.r, .i], sizes := .byte },
  { stem := "TEST_MEMv_IMMz_F7r0", op := .test, shape := [.m, .i], sizes := .words },
  { stem := "TEST_MEMv_IMMz_F7r1", op := .test, shape := [.m, .i], sizes := .words },
  { stem := "TEST_GPRv_IMMz_F7r0", op := .test, shape := [.r, .i], sizes := .words },
  { stem := "TEST_GPRv_IMMz_F7r1", op := .test, shape := [.r, .i], sizes := .words },
  { stem := "TEST_MEMb_GPR8", op := .test, shape := [.m, .r], sizes := .byte },
  { stem := "TEST_GPR8_GPR8", op := .test, shape := [.r, .r], sizes := .byte },
  { stem := "TEST_MEMv_GPRv", op := .test, shape := [.m, .r], sizes := .words },
  { stem := "TEST_GPRv_GPRv", op := .test, shape := [.r, .r], sizes := .words },
  { stem := "TEST_AL_IMMb", op := .test, shape := [.r, .i], sizes := .byte },
  { stem := "TEST_OrAX_IMMz", op := .test, shape := [.r, .i], sizes := .words }]

/-- Instructions with one source. -/
def unary : List Row := [
  { stem := "INC_MEMb", op := .inc, shape := [.mw, .m], sizes := .byte },
  { stem := "INC_GPR8", op := .inc, shape := [.rw, .r], sizes := .byte },
  { stem := "INC_MEMv", op := .inc, shape := [.mw, .m], sizes := .words },
  { stem := "INC_GPRv_FFr0", op := .inc, shape := [.rw, .r], sizes := .words },
  { stem := "INC_GPRv_40", op := .inc, shape := [.rw, .r], sizes := .words, mode := .legacy },
  { stem := "DEC_MEMb", op := .dec, shape := [.mw, .m], sizes := .byte },
  { stem := "DEC_GPR8", op := .dec, shape := [.rw, .r], sizes := .byte },
  { stem := "DEC_MEMv", op := .dec, shape := [.mw, .m], sizes := .words },
  { stem := "DEC_GPRv_FFr1", op := .dec, shape := [.rw, .r], sizes := .words },
  { stem := "DEC_GPRv_48", op := .dec, shape := [.rw, .r], sizes := .words, mode := .legacy },
  { stem := "NEG_MEMb", op := .neg, shape := [.mw, .m], sizes := .byte },
  { stem := "NEG_GPR8", op := .neg, shape := [.rw, .r], sizes := .byte },
  { stem := "NEG_MEMv", op := .neg, shape := [.mw, .m], sizes := .words },
  { stem := "NEG_GPRv", op := .neg, shape := [.rw, .r], sizes := .words },
  { stem := "NOT_MEMb", op := .not, shape := [.mw, .m], sizes := .byte },
  { stem := "NOT_GPR8", op := .not, shape := [.rw, .r], sizes := .byte },
  { stem := "NOT_MEMv", op := .not, shape := [.mw, .m], sizes := .words },
  { stem := "NOT_GPRv", op := .not, shape := [.rw, .r], sizes := .words }]

/-- Exchange and add. -/
def exchange : List Row := [
  { stem := "XADD_MEMb_GPR8", op := .xadd, shape := [.mw, .m, .rw, .r], sizes := .byte },
  { stem := "XADD_GPR8_GPR8", op := .xadd, shape := [.rw, .r, .rw, .r], sizes := .byte },
  { stem := "XADD_MEMv_GPRv", op := .xadd, shape := [.mw, .m, .rw, .r], sizes := .words },
  { stem := "XADD_GPRv_GPRv", op := .xadd, shape := [.rw, .r, .rw, .r], sizes := .words }]

/-- The forms with one operand that MUL, IMUL, DIV and IDIV share. -/
def accumulator (mn : String) (op : Op) (sign : Sign) : List Row := [
  { stem := mn ++ "_MEMb", op, sign, shape := [.m], sizes := .byte },
  { stem := mn ++ "_GPR8", op, sign, shape := [.r], sizes := .byte },
  { stem := mn ++ "_MEMv", op, sign, shape := [.m], sizes := .scalars },
  { stem := mn ++ "_GPRv", op, sign, shape := [.r], sizes := .scalars }]

/-- Multiplications with a destination of their own. -/
def multiplication : List Row := [
  { stem := "IMUL_GPRv_MEMv_IMMz", op := .imul, sign := .signed, shape := [.rw, .m, .i],
    sizes := .words },
  { stem := "IMUL_GPRv_GPRv_IMMz", op := .imul, sign := .signed, shape := [.rw, .r, .i],
    sizes := .words },
  { stem := "IMUL_GPRv_MEMv_IMMb", op := .imul, sign := .signed, shape := [.rw, .m, .i],
    sizes := .words },
  { stem := "IMUL_GPRv_GPRv_IMMb", op := .imul, sign := .signed, shape := [.rw, .r, .i],
    sizes := .words },
  { stem := "IMUL_GPRv_MEMv", op := .imul, sign := .signed, shape := [.rw, .r, .m],
    sizes := .words },
  { stem := "IMUL_GPRv_GPRv", op := .imul, sign := .signed, shape := [.rw, .r, .r],
    sizes := .words },
  { stem := "MULX_VGPR32d_VGPR32d_VGPR32d", op := .mulx, shape := [.rw, .rw, .r],
    sizes := .only .w32, extension := .vex },
  { stem := "MULX_VGPR32d_VGPR32d_MEMd", op := .mulx, shape := [.rw, .rw, .m],
    sizes := .only .w32, extension := .vex },
  { stem := "MULX_VGPR64q_VGPR64q_VGPR64q", op := .mulx, shape := [.rw, .rw, .r],
    sizes := .only .w64, mode := .long, extension := .vex },
  { stem := "MULX_VGPR64q_VGPR64q_MEMq", op := .mulx, shape := [.rw, .rw, .m],
    sizes := .only .w64, mode := .long, extension := .vex }]

/-- The forms of a shift. The suffixes tell encodings apart, for immediate counts, for single
steps and for counts in a register, in each case first for bytes and then for words. -/
def shift (mn : String) (op : Op) (sign : Sign) (immb immv oneb onev clb clv : String) :
    List Row := [
  { stem := mn ++ "_MEMb_IMMb" ++ immb, op, sign, shape := [.mw, .m, .i], sizes := .byte },
  { stem := mn ++ "_GPR8_IMMb" ++ immb, op, sign, shape := [.rw, .r, .i], sizes := .byte },
  { stem := mn ++ "_MEMv_IMMb" ++ immv, op, sign, shape := [.mw, .m, .i], sizes := .words },
  { stem := mn ++ "_GPRv_IMMb" ++ immv, op, sign, shape := [.rw, .r, .i], sizes := .words },
  { stem := mn ++ "_MEMb_ONE" ++ oneb, op, sign, shape := [.mw, .m, .i], sizes := .byte },
  { stem := mn ++ "_GPR8_ONE" ++ oneb, op, sign, shape := [.rw, .r, .i], sizes := .byte },
  { stem := mn ++ "_MEMv_ONE" ++ onev, op, sign, shape := [.mw, .m, .i], sizes := .words },
  { stem := mn ++ "_GPRv_ONE" ++ onev, op, sign, shape := [.rw, .r, .i], sizes := .words },
  { stem := mn ++ "_MEMb_CL" ++ clb, op, sign, shape := [.mw, .m, .r], sizes := .byte },
  { stem := mn ++ "_GPR8_CL" ++ clb, op, sign, shape := [.rw, .r, .r], sizes := .byte },
  { stem := mn ++ "_MEMv_CL" ++ clv, op, sign, shape := [.mw, .m, .r], sizes := .words },
  { stem := mn ++ "_GPRv_CL" ++ clv, op, sign, shape := [.rw, .r, .r], sizes := .words }]

/-- Shifts to the right, where one encoding of every form is enough. -/
def shiftRight (mn : String) (sign : Sign) : List Row :=
  shift mn .shr sign "" "" "" "" "" ""

/-- Shifts to the left, where every form has two encodings that a digit tells apart. -/
def shiftLeft (digit : String) : List Row :=
  shift "SHL" .shl .unsigned ("_C0r" ++ digit) ("_C1r" ++ digit) ("_D0r" ++ digit)
    ("_D1r" ++ digit) ("_D2r" ++ digit) ("_D3r" ++ digit)

/-- A pair of forms between vector registers whose last operand is in memory or in a register. -/
def vectorPair (memory register : String) (op : Op) (w : Width) (extension : Extension) :
    List Row := [
  { stem := memory, op, shape := [.rw, .r, .m], sizes := .only w, extension },
  { stem := register, op, shape := [.rw, .r, .r], sizes := .only w, extension }]

/-- The forms of a packed bitwise operation: on MMX and XMM registers, with VEX encoding, and the
names for vectors of floating-point numbers. -/
def packed (p vp pd ps vpd vps : String) (op : Op) : List Row :=
  vectorPair (p ++ "q_MEMq") (p ++ "qq") op .w64 .base ++
  vectorPair (p ++ "_XMMdq_MEMdq") (p ++ "_XMMdq_XMMdq") op .w32 .base ++
  vectorPair (vp ++ "_XMMdq_XMMdq_MEMdq") (vp ++ "_XMMdq_XMMdq_XMMdq") op .w128 .vex ++
  vectorPair (vp ++ "_YMMqq_YMMqq_MEMqq") (vp ++ "_YMMqq_YMMqq_YMMqq") op .w256 .vex ++
  vectorPair (pd ++ "_XMMpd_MEMpd") (pd ++ "_XMMpd_XMMpd") op .w64 .base ++
  vectorPair (ps ++ "_XMMps_MEMps") (ps ++ "_XMMps_XMMps") op .w32 .base ++
  vectorPair (vpd ++ "_XMMdq_XMMdq_MEMdq") (vpd ++ "_XMMdq_XMMdq_XMMdq") op .w64 .vex ++
  vectorPair (vpd ++ "_YMMqq_YMMqq_MEMqq") (vpd ++ "_YMMqq_YMMqq_YMMqq") op .w64 .vex ++
  vectorPair (vps ++ "_XMMdq_XMMdq_MEMdq") (vps ++ "_XMMdq_XMMdq_XMMdq") op .w32 .vex ++
  vectorPair (vps ++ "_YMMqq_YMMqq_MEMqq") (vps ++ "_YMMqq_YMMqq_YMMqq") op .w32 .vex

/-- Tests between vector registers. -/
def packedTest : List Row := [
  { stem := "PTEST_XMMdq_MEMdq", op := .ptest, shape := [.r, .m], sizes := .only .w32 },
  { stem := "PTEST_XMMdq_XMMdq", op := .ptest, shape := [.r, .r], sizes := .only .w32 },
  { stem := "VPTEST_XMMdq_MEMdq", op := .ptest, shape := [.r, .m], sizes := .only .w32,
    extension := .vex },
  { stem := "VPTEST_XMMdq_XMMdq", op := .ptest, shape := [.r, .r], sizes := .only .w32,
    extension := .vex },
  { stem := "VPTEST_YMMqq_MEMqq", op := .ptest, shape := [.r, .m], sizes := .only .w32,
    extension := .vex },
  { stem := "VPTEST_YMMqq_YMMqq", op := .ptest, shape := [.r, .r], sizes := .only .w32,
    extension := .vex }]

/-- All instruction forms. -/
def all : List Row :=
  arithmetic "ADD" .add "0" "00" "01" "02" "03" ++
  arithmetic "OR" .or "1" "08" "09" "0A" "0B" ++
  arithmetic "ADC" .adc "2" "10" "11" "12" "13" ++
  arithmetic "SBB" .sbb "3" "18" "19" "1A" "1B" ++
  arithmetic "AND" .and "4" "20" "21" "22" "23" ++
  arithmetic "SUB" .sub "5" "28" "29" "2A" "2B" ++
  arithmetic "XOR" .xor "6" "30" "31" "32" "33" ++
  comparison ++ bitTest ++ unary ++ exchange ++
  accumulator "IMUL" .mulAcc .signed ++
  accumulator "MUL" .mulAcc .unsigned ++
  multiplication ++
  accumulator "IDIV" .divAcc .signed ++
  accumulator "DIV" .divAcc .unsigned ++
  shiftRight "SHR" .unsigned ++ shiftRight "SAR" .signed ++
  shiftLeft "4" ++ shiftLeft "6" ++
  packed "PXOR" "VPXOR" "XORPD" "XORPS" "VXORPD" "VXORPS" .pxor ++
  packed "PAND" "VPAND" "ANDPD" "ANDPS" "VANDPD" "VANDPS" .pand ++
  packed "PANDN" "VPANDN" "ANDNPD" "ANDNPS" "VANDNPD" "VANDNPS" .pandn ++
  packed "POR" "VPOR" "ORPD" "ORPS" "VORPD" "VORPS" .por ++
  packedTest

end X86.Rows
