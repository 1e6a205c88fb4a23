/-
Opcode numberings (`rosetta_core/src/OpcodeCompatibility.cpp`,
`Opcode.cpp`).

A runtime numbers the opcodes in the order of its own mnemonic table.
`opcode_set_host_table` fills two index tables from that list of names,
in one pass over it. Until a table is set the numbering is keyed by the
runtime's version; that one is the parameter `versioned`.
-/
import X87Sidecar.Lib.Text
import Mathlib.Data.BitVec

namespace X87Sidecar.Opcodes

open Lib.Text

/-- `kOpcodeNames`, in the order of the internal numbering. -/
def kOpcodeNames : List String :=
  ["aaa", "aad", "aam", "aas", "adc", "add", "and", "andn", "bextr",
   "blsi", "blsmsk", "blsr", "bsf", "bsr", "bt", "btc", "btr", "bts",
   "bzhi", "clc", "cld", "cmc", "cmovcc", "cmp", "cmpsb_string",
   "cmpsd_string", "cmpsq_string", "cmpsw_string", "cmpxchg", "cmpxchg16b",
   "cmpxchg8b", "comisd", "comiss", "daa", "das", "dec", "div", "fcmovb",
   "fcmovbe", "fcmove", "fcmovnb", "fcmovnbe", "fcmovne", "fcmovnu",
   "fcmovu", "fcomi", "fcomip", "fucomi", "fucomip", "idiv", "imul", "inc",
   "insb", "insd", "insw", "jcc", "lahf", "lodsb", "lodsd", "lodsq",
   "lodsw", "loope", "looped", "loopew", "loopne", "loopned", "loopnew",
   "lsl", "lzcnt", "movsb_string", "movsd_string", "mul", "neg", "or",
   "outsb", "outsd", "outsw", "popcnt", "popf", "popfd", "popfq", "ptest",
   "pushf", "pushfd", "pushfq", "rcl", "rcr", "rdrand", "rol", "ror",
   "sahf", "sar", "sbb", "scasb", "scasd", "scasq", "scasw", "setcc",
   "shl", "shld", "shr", "shrd", "stc", "std", "stosb", "stosd", "stosq",
   "stosw", "sub", "test", "tzcnt", "ucomisd", "ucomiss", "vtestpd",
   "vtestps", "xadd", "xor", "addpd", "addps", "addsd", "addss",
   "addsubpd", "addsubps", "aesdec", "aesdeclast", "aesenc", "aesenclast",
   "aesimc", "aeskeygenassist", "andnpd", "andnps", "andpd", "andps",
   "blendpd", "blendps", "blendvpd", "blendvps", "bound", "bswap", "call",
   "call_far", "cbw", "cdq", "cdqe", "clflush", "cli", "cmppd", "cmpps",
   "cmpsd", "cmpss", "cpuid", "cqo", "crc32", "cvtdq2pd", "cvtdq2ps",
   "cvtpd2dq", "cvtpd2pi", "cvtpd2ps", "cvtpi2pd", "cvtpi2ps", "cvtps2dq",
   "cvtps2pd", "cvtps2pi", "cvtsd2si", "cvtsd2ss", "cvtsi2sd", "cvtsi2ss",
   "cvtss2sd", "cvtss2si", "cvttpd2dq", "cvttpd2pi", "cvttps2dq",
   "cvttps2pi", "cvttsd2si", "cvttss2si", "cwd", "cwde", "divpd", "divps",
   "divsd", "divss", "dppd", "dpps", "emms", "enter", "enterd", "enterw",
   "extractps", "f2xm1", "fabs", "fadd", "faddp", "fbld", "fbstp", "fchs",
   "fclex", "fcom", "fcomp", "fcompp", "fcos", "fdecstp", "fdisi", "fdiv",
   "fdivp", "fdivr", "fdivrp", "feni", "ffree", "fiadd", "ficom", "ficomp",
   "fidiv", "fidivr", "fild", "fimul", "fincstp", "finit", "fist", "fistp",
   "fisttp", "fisub", "fisubr", "fld", "fld1", "fldcw", "fldenv", "fldl2e",
   "fldl2t", "fldlg2", "fldln2", "fldpi", "fldz", "fmul", "fmulp", "fnop",
   "fnstcw", "fpatan", "fprem", "fprem1", "fptan", "frndint", "frstor",
   "fsave", "fscale", "fsin", "fsincos", "fsqrt", "fst", "fst_stack",
   "fstenv", "fstp", "fstp_stack", "fstsw", "fsub", "fsubp", "fsubr",
   "fsubrp", "ftst", "fucom", "fucomp", "fucompp", "fxam", "fxch",
   "fxrstor", "fxsave", "fxtract", "fyl2x", "fyl2xp1", "haddpd", "haddps",
   "hlt", "hsubpd", "hsubps", "in", "insertps", "int", "int3", "invd",
   "invlpg", "iret", "iret_64", "jcxz", "jecxz", "jmp", "jmp_far", "jrcxz",
   "l_segment", "lddqu", "ldmxcsr", "lea", "leave", "leaved", "leavew",
   "lfence", "lgdt", "lidt", "lmsw", "loop", "loopd", "loopw",
   "maskmovdqu", "maskmovq", "maxpd", "maxps", "maxsd", "maxss", "mfence",
   "minpd", "minps", "minsd", "minss", "monitor", "mov", "mov_segment",
   "movapd", "movaps", "movbe", "movd", "movddup", "movdq2q", "movdqa",
   "movdqu", "movhlps", "movhpd", "movhps", "movlhps", "movlpd", "movlps",
   "movmskpd", "movmskps", "movntdq", "movntdqa", "movnti", "movntpd",
   "movntps", "movntq", "movq", "movq2dq", "movsd", "movshdup", "movsldup",
   "movsq_string", "movss", "movsw_string", "movsx", "movsxd", "movupd",
   "movups", "movzx", "mpsadbw", "mulpd", "mulps", "mulsd", "mulss",
   "mulx", "mwait", "nop", "not", "orpd", "orps", "out", "pabsb", "pabsd",
   "pabsw", "packssdw", "packsswb", "packusdw", "packuswb", "paddb",
   "paddd", "paddq", "paddsb", "paddsw", "paddusb", "paddusw", "paddw",
   "palignr", "pand", "pandn", "pavgb", "pavgw", "pblendvb", "pblendw",
   "pclmulqdq", "pcmpeqb", "pcmpeqd", "pcmpeqq", "pcmpeqw", "pcmpestri_32",
   "pcmpestri_64", "pcmpestrm_32", "pcmpestrm_64", "pcmpgtb", "pcmpgtd",
   "pcmpgtq", "pcmpgtw", "pcmpistri_32", "pcmpistri_64", "pcmpistrm",
   "pdep", "pext", "pextrb", "pextrdq", "pextrw", "phaddd", "phaddsw",
   "phaddw", "phminposuw", "phsubd", "phsubsw", "phsubw", "pinsrb",
   "pinsrdq", "pinsrw", "pmaddubsw", "pmaddwd", "pmaxsb", "pmaxsd",
   "pmaxsw", "pmaxub", "pmaxud", "pmaxuw", "pminsb", "pminsd", "pminsw",
   "pminub", "pminud", "pminuw", "pmovmskb", "pmovsxbd", "pmovsxbq",
   "pmovsxbw", "pmovsxdq", "pmovsxwd", "pmovsxwq", "pmovzxbd", "pmovzxbq",
   "pmovzxbw", "pmovzxdq", "pmovzxwd", "pmovzxwq", "pmuldq", "pmulhrsw",
   "pmulhuw", "pmulhw", "pmulld", "pmullw", "pmuludq", "pop",
   "pop_segment", "popa", "popad", "popd", "popd_segment", "popw",
   "popw_segment", "por", "prefetchnta", "prefetcht0", "prefetcht1",
   "prefetcht2", "prefetchw", "prefetchwt1", "psadbw", "pshufb", "pshufd",
   "pshufhw", "pshuflw", "pshufw", "psignb", "psignd", "psignw", "pslld",
   "pslldq", "psllq", "psllw", "psrad", "psraw", "psrld", "psrldq",
   "psrlq", "psrlw", "psubb", "psubd", "psubq", "psubsb", "psubsw",
   "psubusb", "psubusw", "psubw", "punpckhbw", "punpckhdq", "punpckhqdq",
   "punpckhwd", "punpcklbw", "punpckldq", "punpcklqdq", "punpcklwd",
   "push", "push_segment", "pusha", "pushad", "pushd", "pushd_segment",
   "pushw", "pushw_segment", "pxor", "rcpps", "rcpss", "rdmsr", "rdpmc",
   "rdtsc", "rdtscp", "ret", "ret_far", "rorx", "roundpd", "roundps",
   "roundsd", "roundss", "rsqrtps", "rsqrtss", "sarx", "sfence", "sgdt",
   "sgdtd", "shlx", "shrx", "shufpd", "shufps", "sidt", "sldt", "sldt32",
   "smsw", "sqrtpd", "sqrtps", "sqrtsd", "sqrtss", "sti", "stmxcsr", "str",
   "subpd", "subps", "subsd", "subss", "swapgs", "syscall", "sysenter",
   "sysexit", "sysret", "ud2", "unpckhpd", "unpckhps", "unpcklpd",
   "unpcklps", "vbroadcastf128", "vbroadcasti128", "vbroadcastsd",
   "vbroadcastss", "vcvtph2ps", "vcvtps2ph", "vextractf128",
   "vextracti128", "vfmadd132pd", "vfmadd132ps", "vfmadd132sd",
   "vfmadd132ss", "vfmadd213pd", "vfmadd213ps", "vfmadd213sd",
   "vfmadd213ss", "vfmadd231pd", "vfmadd231ps", "vfmadd231sd",
   "vfmadd231ss", "vfmaddsub132pd", "vfmaddsub132ps", "vfmaddsub213pd",
   "vfmaddsub213ps", "vfmaddsub231pd", "vfmaddsub231ps", "vfmsub132pd",
   "vfmsub132ps", "vfmsub132sd", "vfmsub132ss", "vfmsub213pd",
   "vfmsub213ps", "vfmsub213sd", "vfmsub213ss", "vfmsub231pd",
   "vfmsub231ps", "vfmsub231sd", "vfmsub231ss", "vfmsubadd132pd",
   "vfmsubadd132ps", "vfmsubadd213pd", "vfmsubadd213ps", "vfmsubadd231pd",
   "vfmsubadd231ps", "vfnmadd132pd", "vfnmadd132ps", "vfnmadd132sd",
   "vfnmadd132ss", "vfnmadd213pd", "vfnmadd213ps", "vfnmadd213sd",
   "vfnmadd213ss", "vfnmadd231pd", "vfnmadd231ps", "vfnmadd231sd",
   "vfnmadd231ss", "vfnmsub132pd", "vfnmsub132ps", "vfnmsub132sd",
   "vfnmsub132ss", "vfnmsub213pd", "vfnmsub213ps", "vfnmsub213sd",
   "vfnmsub213ss", "vfnmsub231pd", "vfnmsub231ps", "vfnmsub231sd",
   "vfnmsub231ss", "vgatherdpd", "vgatherdps", "vgatherqpd", "vgatherqps",
   "vinsertf128", "vinserti128", "vmaskmovpd", "vmaskmovps", "vpblendd",
   "vpbroadcastb", "vpbroadcastd", "vpbroadcastq", "vpbroadcastw",
   "vperm2f128", "vperm2i128", "vpermd", "vpermilpd", "vpermilps",
   "vpermpd", "vpermps", "vpermq", "vpgatherdd", "vpgatherdq",
   "vpgatherqd", "vpgatherqq", "vpmaskmovd", "vpmaskmovq", "vpsllvd",
   "vpsllvq", "vpsravd", "vpsrlvd", "vpsrlvq", "vzeroall", "vzeroupper",
   "wait", "wbinv", "wrmsr", "xchg", "xgetbv", "xlat", "xorpd", "xorps",
   "xrstor", "xsave", "xsetbv", "arpl"]

/-- `kOpcodeName_arpl`: the internal id of the synthetic opcode. -/
def kOpcodeName_arpl : BitVec 16 := 0x29C

/-- `kOpcodeUnmapped`. -/
def kOpcodeUnmapped : BitVec 16 := 0xFFFF

/-- What `opcode_set_host_table` keeps. -/
structure HostTable where
  active : Bool := false
  /-- indexed by host id -/
  hostToInternal : List (BitVec 16) := []
  /-- indexed by internal id -/
  internalToHost : List (BitVec 16) := []
  arpl : BitVec 16 := kOpcodeName_arpl
  deriving DecidableEq, Repr

/-- `emplace` into a map: a key that is there keeps its value. -/
def emplace (m : List (Str × BitVec 16)) (key : Str) (value : BitVec 16) :
    List (Str × BitVec 16) :=
  if (m.lookup key).isSome then m else (key, value) :: m

/-- `internalByName`: the internal ids by name, the synthetic one left
out. -/
def internalByName (names : List Str) : List (Str × BitVec 16) :=
  names.zipIdx.foldl (fun m (name, i) =>
    if BitVec.ofNat 16 i ≠ kOpcodeName_arpl then
      emplace m name (BitVec.ofNat 16 i)
    else m) []

/-- One turn of the loop over the host's names: both index tables, after
the name of host id `h`. -/
def enterHost (byName : List (Str × BitVec 16))
    (tables : List (BitVec 16) × List (BitVec 16)) (name : Str) (h : Nat) :
    List (BitVec 16) × List (BitVec 16) :=
  match byName.lookup name with
  | none => tables
  | some i =>
      (tables.1.set h i,
        if tables.2[i.toNat]? = some kOpcodeUnmapped then
          tables.2.set i.toNat (BitVec.ofNat 16 h)
        else tables.2)

/-- `opcode_set_host_table`, over the internal names. -/
def hostTable (names hostNames : List Str) : HostTable :=
  let tables := hostNames.zipIdx.foldl
    (fun t (name, h) => enterHost (internalByName names) t name h)
    (List.replicate hostNames.length kOpcodeUnmapped,
      List.replicate names.length kOpcodeUnmapped)
  let arpl := BitVec.ofNat 16 hostNames.length
  { active := true
    hostToInternal := tables.1
    internalToHost := tables.2.set kOpcodeName_arpl.toNat arpl
    arpl }

/-- `opcode_set_host_table`. -/
def opcode_set_host_table (hostNames : List Str) : HostTable :=
  hostTable (kOpcodeNames.map ascii) hostNames

/-- `opcode_host_to_internal`. -/
def opcode_host_to_internal (versioned : BitVec 16 → BitVec 16)
    (g : HostTable) (opcode : BitVec 16) : BitVec 16 :=
  if g.active then
    if opcode = g.arpl then kOpcodeName_arpl
    else g.hostToInternal.getD opcode.toNat kOpcodeUnmapped
  else versioned opcode

/-- `opcode_internal_to_host`. -/
def opcode_internal_to_host (versioned : BitVec 16 → BitVec 16)
    (g : HostTable) (opcode : BitVec 16) : BitVec 16 :=
  if g.active then g.internalToHost.getD opcode.toNat kOpcodeUnmapped
  else versioned opcode

end X87Sidecar.Opcodes
