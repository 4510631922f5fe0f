-- Writing and reading a `.ocx` file (cx_link.c, cx_symio.c): the writer, the header and its
-- size formula, the reader, and the iteration over the members of a library.
import Ups.ByteParser
import Ups.LinkInfo

open le_bytes
open byte_parsing
open ups_rules.link_info

namespace ups_rules.cx_file

/-! ## The pure model: what is being written -/

/-- The output file behind its header, and the string table (an `ebuf_t`). -/
structure CxOut where
  fp : List (BitVec 8)
  str_eb : List (BitVec 8)

def fpWrite (bs : List (BitVec 8)) (o : CxOut) : CxOut := { o with fp := o.fp ++ bs }

/-- A size_t in memory. -/
def wordBytes (v : Taddr) : List (BitVec 8) := leBytes 8 v.toNat

def fpWriteVal (v : Taddr) (o : CxOut) : CxOut := fpWrite (wordBytes v) o

/-- An int that becomes a size_t. -/
def ofCInt (n : Nat) : Taddr := (BitVec.ofNat 32 n).signExtend 64

/-- The place of a string that is added to the table, and the table with it. -/
def noteString (s : CString) (o : CxOut) : Taddr × CxOut :=
  (ofCInt o.str_eb.length, { o with str_eb := o.str_eb ++ (s ++ [0#8]) })

def saveString (s : CString) (o : CxOut) : CxOut :=
  let (pos, o) := noteString s o
  fpWriteVal pos o

def writeLinknames (lns : List Linkname) (o : CxOut) : CxOut :=
  lns.foldl (fun o ln => fpWriteVal ln.ln_addr (saveString ln.ln_name o)) o

def writeExtRelocs (ers : List ExtReloc) (o : CxOut) : CxOut :=
  ers.foldl (fun o er => fpWriteVal (er.er_index.signExtend 64) (fpWriteVal er.er_location o)) o

def writeStaticRelocs (rps : List Taddr) (o : CxOut) : CxOut :=
  rps.foldl (fun o rp => fpWriteVal rp o) o

/-- The loop over the undefined functions; `none` is the panic on a wrong index. -/
def writeFuncrefs : List Libfunc → Nat → CxOut → Option CxOut
  | [], _, o => some o
  | lf :: lfs, nfuncrefs, o =>
    if -lf.lf_index ≠ (nfuncrefs : Int) + 1 then none
    else writeFuncrefs lfs (nfuncrefs + 1) (saveString lf.lf_name o)

/-! ### The symbol table -/

/-- What `write_block` and `write_types` make of the blocks and types of a file: their bytes,
the number of types and the strings they add to the table of the symbol table. -/
structure Symdata where
  sd_blocks : List (BitVec 8)
  sd_types : List (BitVec 8)
  sd_ntypes : Taddr
  sd_strings : List (BitVec 8)

/-- The header of a symbol table (`o_syminfo_t`). -/
structure OSyminfo where
  os_strings_size : Taddr
  os_nfuncs : Taddr
  os_nvars : Taddr
  os_types_offset : Taddr
  os_ntypes : Taddr
  os_symdata_nbytes : Taddr
  os_letab_count : Taddr
  os_letab_nbytes : Taddr

def OSyminfo.fields (os : OSyminfo) : List Taddr :=
  [os.os_strings_size, os.os_nfuncs, os.os_nvars, os.os_types_offset, os.os_ntypes,
    os.os_symdata_nbytes, os.os_letab_count, os.os_letab_nbytes]

/-- An int, so that it becomes a size_t with its sign. -/
def getSymtabSize (os : OSyminfo) : Taddr :=
  ((64#64 + os.os_nfuncs * 8#64 * 3#64 + os.os_nvars * 8#64 + os.os_symdata_nbytes +
    os.os_letab_nbytes + os.os_strings_size).setWidth 32).signExtend 64

/-- The entries of one function, from the line and the address of the last one; `none` is the
panic on lines that are not sorted. -/
def writeLetab : List LnumEntry → BitVec 32 → BitVec 32 → Option (List (BitVec 8))
  | [], _, _ => some []
  | le :: les, lnum, addr =>
    let lnum_delta := (le.le_lnum - lnum).toInt
    let addr_delta := (le.le_addr.setWidth 32 - addr).toInt
    if lnum_delta < 0 then none
    else
      let entry :=
        if lnum_delta < 128 ∧ -256 < addr_delta ∧ addr_delta ≤ 255 then
          let sign := if addr_delta < 0 then 256 else 0
          leBytes 2 (lnum_delta.toNat * 512 + sign + (addr_delta % 256).toNat)
        else leBytes 2 256 ++ wordBytes (le.le_lnum.signExtend 64) ++ wordBytes le.le_addr
      (writeLetab les le.le_lnum (le.le_addr.setWidth 32)).map (entry ++ ·)

/-- The first entry of a function is forced to be absolute by a line of -1000. -/
def writeLetabs : List Symfunc → Option (List (BitVec 8))
  | [] => some []
  | sf :: sfs =>
    match writeLetab sf.sf_letab (-1000) 0, writeLetabs sfs with
    | some bs, some cs => some (bs ++ cs)
    | _, _ => none

def writeSymfuncs (sfs : List Symfunc) (o : CxOut) : CxOut :=
  sfs.foldl (fun o sf => fpWriteVal (BitVec.ofNat 64 sf.sf_letab.length)
    (fpWriteVal sf.sf_addr (saveString sf.sf_name o))) o

def writeSymvars (svs : List CString) (o : CxOut) : CxOut :=
  svs.foldl (fun o sv => saveString sv o) o

/-- The symbol table behind the file written so far, and `cx_symtab_size`. -/
def writeSymtab (li : Linkinfo) (sd : Symdata) : Option (List (BitVec 8) × Taddr) :=
  (writeLetabs li.li_symfuncs).map fun letabs =>
    let o := writeSymfuncs li.li_symfuncs ⟨[], []⟩
    let o := writeSymvars li.li_symvars (fpWrite letabs o)
    let types_offset := 64 + o.fp.length + sd.sd_blocks.length
    let o := fpWrite (sd.sd_blocks ++ sd.sd_types) o
    let strings := o.str_eb ++ sd.sd_strings
    let oshdr : OSyminfo := {
      os_nfuncs := BitVec.ofNat 64 li.li_symfuncs.length
      os_nvars := BitVec.ofNat 64 li.li_symvars.length
      os_letab_count := BitVec.ofNat 64 ((li.li_symfuncs.map (·.sf_letab.length)).sum)
      os_letab_nbytes := BitVec.ofNat 64 letabs.length
      os_types_offset := BitVec.ofNat 64 types_offset
      os_ntypes := sd.sd_ntypes
      os_symdata_nbytes := BitVec.ofNat 64 (sd.sd_blocks ++ sd.sd_types).length
      os_strings_size := BitVec.ofNat 64 strings.length }
    (oshdr.fields.flatMap wordBytes ++ o.fp ++ strings, getSymtabSize oshdr)

/-! ### The file -/

def OCX_MAGIC : Taddr := 0x0cc0c0de
def OCX_VERSION : Taddr := 1

/-- The fields of the header in the order of the file. -/
def headerFields (cx : CxHeader) : List Taddr :=
  [cx.cx_magic, cx.cx_version, cx.cx_bss_size, cx.cx_extbss_size, cx.cx_srcpath, cx.cx_nfuncrefs,
    cx.cx_nvarrefs, cx.cx_nfuncs, cx.cx_nvars, cx.cx_strings_size, cx.cx_extdata_size,
    cx.cx_n_extdata_relocs, cx.cx_n_extdata_funcrelocs, cx.cx_text_size, cx.cx_data_size,
    cx.cx_n_static_relocs, cx.cx_n_static_funcrelocs, cx.cx_n_ext_relocs, cx.cx_nfuncaddrs,
    cx.cx_symtab_size]

/-- `ci_write_cx_file` with and without symbol information: the header and all bytes of the
file. `none` is a panic; the file itself is taken to be writable. -/
def ciWriteCxFile (li : Linkinfo) (syminfo : Option Symdata) :
    Option (CxHeader × List (BitVec 8)) := do
  let (srcpath, o) := noteString li.li_srcpath ⟨[], []⟩
  let o ← writeFuncrefs li.li_undef_funcs 0 o
  let o := li.li_undef_vars.foldl (fun o ln => saveString ln.ln_name o) o
  let o := writeLinknames li.li_funcs o
  let o := writeLinknames li.li_vars o
  let strings := o.str_eb
  let o := fpWrite strings o
  let o := fpWrite li.li_extdata o
  let o := writeExtRelocs li.li_extdata_relocs o
  let o := writeStaticRelocs li.li_extdata_funcrelocs o
  let o := fpWrite li.li_text o
  let o := fpWrite li.li_data o
  let o := writeStaticRelocs li.li_static_rps o
  let o := writeStaticRelocs li.li_static_funcrps o
  let o := writeExtRelocs li.li_ext_relocs o
  let o := writeStaticRelocs li.li_funcaddrs o
  let (symtab, symtab_size) ←
    match syminfo with
    | none => some ([], 0#64)
    | some sd => writeSymtab li sd
  let cx : CxHeader := {
    cx_magic := OCX_MAGIC
    cx_version := OCX_VERSION
    cx_bss_size := li.li_bss_size
    cx_extbss_size := li.li_extbss_size
    cx_srcpath := srcpath
    cx_nfuncrefs := BitVec.ofNat 64 li.li_undef_funcs.length
    cx_nvarrefs := BitVec.ofNat 64 li.li_undef_vars.length
    cx_nfuncs := BitVec.ofNat 64 li.li_funcs.length
    cx_nvars := BitVec.ofNat 64 li.li_vars.length
    cx_strings_size := ofCInt strings.length
    cx_extdata_size := BitVec.ofNat 64 li.li_extdata.length
    cx_n_extdata_relocs := BitVec.ofNat 64 li.li_extdata_relocs.length
    cx_n_extdata_funcrelocs := BitVec.ofNat 64 li.li_extdata_funcrelocs.length
    cx_text_size := BitVec.ofNat 64 li.li_text.length
    cx_data_size := BitVec.ofNat 64 li.li_data.length
    cx_n_static_relocs := BitVec.ofNat 64 li.li_static_rps.length
    cx_n_static_funcrelocs := BitVec.ofNat 64 li.li_static_funcrps.length
    cx_n_ext_relocs := BitVec.ofNat 64 li.li_ext_relocs.length
    cx_nfuncaddrs := BitVec.ofNat 64 li.li_funcaddrs.length
    cx_symtab_size := symtab_size }
  return (cx, (headerFields cx).flatMap wordBytes ++ o.fp ++ symtab)

/-! ## The pure model: what is being read -/

/-- The C string at a place of the string table. -/
def cstrAt (strings : List (BitVec 8)) (offset : Taddr) : CString :=
  (strings.drop offset.toNat).takeWhile (· ≠ 0#8)

def readHeader : Parser CxHeader := do
  let cx_magic ← word
  let cx_version ← word
  let cx_bss_size ← word
  let cx_extbss_size ← word
  let cx_srcpath ← word
  let cx_nfuncrefs ← word
  let cx_nvarrefs ← word
  let cx_nfuncs ← word
  let cx_nvars ← word
  let cx_strings_size ← word
  let cx_extdata_size ← word
  let cx_n_extdata_relocs ← word
  let cx_n_extdata_funcrelocs ← word
  let cx_text_size ← word
  let cx_data_size ← word
  let cx_n_static_relocs ← word
  let cx_n_static_funcrelocs ← word
  let cx_n_ext_relocs ← word
  let cx_nfuncaddrs ← word
  let cx_symtab_size ← word
  return {
    cx_magic, cx_version, cx_bss_size, cx_extbss_size, cx_srcpath, cx_nfuncrefs, cx_nvarrefs,
    cx_nfuncs, cx_nvars, cx_strings_size, cx_extdata_size, cx_n_extdata_relocs,
    cx_n_extdata_funcrelocs, cx_text_size, cx_data_size, cx_n_static_relocs,
    cx_n_static_funcrelocs, cx_n_ext_relocs, cx_nfuncaddrs, cx_symtab_size }

def headerNwords (cx : CxHeader) : Taddr :=
  cx.cx_nfuncrefs + cx.cx_nvarrefs + cx.cx_nfuncaddrs + cx.cx_n_static_relocs +
    cx.cx_n_static_funcrelocs + cx.cx_n_extdata_funcrelocs +
    2#64 * (cx.cx_nfuncs + cx.cx_nvars + cx.cx_n_extdata_relocs + cx.cx_n_ext_relocs)

/-- The size of a file by its header. -/
def headerSize (cx : CxHeader) : Taddr :=
  160#64 + headerNwords cx * 8#64 + cx.cx_strings_size + cx.cx_extdata_size + cx.cx_text_size +
    cx.cx_data_size + cx.cx_symtab_size

/-- `get_header`: at the end of the file the size is 0 and the header is left as it is. -/
def getHeader : Parser (CxHeader × Taddr) := fun bs =>
  if bs = [] then some ((default, 0#64), bs)
  else
    match readHeader bs with
    | none => none
    | some (cx, rest) =>
      if cx.cx_magic ≠ OCX_MAGIC then none
      else if cx.cx_version ≠ OCX_VERSION then none
      else some ((cx, headerSize cx), rest)

/-- Each element is put in front of the list of those before it. -/
def readStaticRelocs (count : Taddr) : Parser (List Taddr) := do
  let list ← many count.toNat word
  return list.reverse

def readExtReloc : Parser ExtReloc := do
  let location ← word
  let index ← word
  return { er_index := index.setWidth 32, er_location := location }

def readExtRelocs (count : Taddr) : Parser (List ExtReloc) := do
  let list ← many count.toNat readExtReloc
  return list.reverse

/-- The pairs of a string and an address; the strings are only read later. -/
def readLinknames (count : Taddr) : Parser (List (Taddr × Taddr)) :=
  many count.toNat do
    let name ← word
    let addr ← word
    return (name, addr)

def readOSyminfo : Parser OSyminfo := do
  let os_strings_size ← word
  let os_nfuncs ← word
  let os_nvars ← word
  let os_types_offset ← word
  let os_ntypes ← word
  let os_symdata_nbytes ← word
  let os_letab_count ← word
  let os_letab_nbytes ← word
  return {
    os_strings_size, os_nfuncs, os_nvars, os_types_offset, os_ntypes, os_symdata_nbytes,
    os_letab_count, os_letab_nbytes }

/-- The next `n` entries of the line number table of a function. -/
def unpackEntries : Nat → BitVec 32 → BitVec 32 → Parser (List LnumEntry)
  | 0, _, _ => return []
  | n + 1, lnum, addr => do
    let bs ← bytes 2
    let sval := ofLeBytes bs
    let negative := sval / 256 % 2 = 1
    let addr_delta := BitVec.ofNat 32 (sval % 256)
    if negative ∧ addr_delta = 0#32 then
      let w0 ← word
      let w1 ← word
      let les ← unpackEntries n (w0.setWidth 32) (w1.setWidth 32)
      return ⟨((w1.setWidth 32).signExtend 64), w0.setWidth 32⟩ :: les
    else
      let lnum := lnum + BitVec.ofNat 32 (sval / 512)
      let addr := addr + if negative then -addr_delta else addr_delta
      let les ← unpackEntries n lnum addr
      return ⟨addr.signExtend 64, lnum⟩ :: les

/-- The functions in their order; what is left over at the end is a panic. -/
def unpackLetab : List Nat → Parser (List (List LnumEntry))
  | [] => return []
  | n :: sizes => do
    let les ← unpackEntries n 0 0
    let rest ← unpackLetab sizes
    return les :: rest

/-- A line number table that does not fill its bytes, or needs more, is a panic. -/
def unpackAll (sizes : List Nat) (buf : List (BitVec 8)) : Option (List (List LnumEntry)) :=
  match unpackLetab sizes buf with
  | some (letabs, []) => some letabs
  | _ => none

def readSymfunc : Parser (Taddr × Taddr × Taddr) := do
  let name ← word
  let addr ← word
  let letab_size ← word
  return (name, addr, letab_size)

def checkSymtabSize (oshdr : OSyminfo) (symtab_size : Taddr) : Parser Unit :=
  if getSymtabSize oshdr ≠ symtab_size then failure else pure ()

def readLetabs (oshdr : OSyminfo) (sizes : List Nat) : Parser (List (List LnumEntry)) :=
  if oshdr.os_nfuncs = 0#64 then pure []
  else do
    let buf ← bytes oshdr.os_letab_nbytes.toNat
    ofOption (unpackAll sizes buf)

/-- `read_symtab`: the functions and the names of the variables. The debugging information is
skipped. -/
def readSymtab (symtab_size : Taddr) : Parser (List Symfunc × List CString) := do
  let oshdr ← readOSyminfo
  checkSymtabSize oshdr symtab_size
  let sfs ← many oshdr.os_nfuncs.toNat readSymfunc
  let letabs ← readLetabs oshdr (sfs.map fun sf => sf.2.2.toNat)
  let svs ← many oshdr.os_nvars.toNat word
  skip oshdr.os_symdata_nbytes.toNat
  let strings ← bytes oshdr.os_strings_size.toNat
  return (List.zipWith (fun sf letab => ⟨cstrAt strings sf.1, sf.2.1, letab⟩) sfs letabs,
    svs.map (cstrAt strings))

/-- What is only read for loading: the text, the data, the relocations in them and the function
addresses. -/
structure TextEtc where
  te_text : List (BitVec 8) := []
  te_data : List (BitVec 8) := []
  te_static_rps : List Taddr := []
  te_static_funcrps : List Taddr := []
  te_ext_relocs : List ExtReloc := []
  te_funcaddrs : List Taddr := []

def readTextEtc (cx : CxHeader) : Parser TextEtc := do
  let te_text ← bytes cx.cx_text_size.toNat
  let te_data ← bytes cx.cx_data_size.toNat
  let te_static_rps ← readStaticRelocs cx.cx_n_static_relocs
  let te_static_funcrps ← readStaticRelocs cx.cx_n_static_funcrelocs
  let te_ext_relocs ← readExtRelocs cx.cx_n_ext_relocs
  let te_funcaddrs ← many cx.cx_nfuncaddrs.toNat word
  return { te_text, te_data, te_static_rps, te_static_funcrps, te_ext_relocs, te_funcaddrs }

/-- The bytes that are skipped instead. -/
def textEtcNbytes (cx : CxHeader) : Taddr :=
  cx.cx_text_size + cx.cx_data_size + cx.cx_n_static_relocs * 8#64 +
    cx.cx_n_static_funcrelocs * 8#64 + cx.cx_n_ext_relocs * 2#64 * 8#64 + cx.cx_nfuncaddrs * 8#64

/-- Both, by what is wanted. -/
def readOrSkipText (cx : CxHeader) (read_text_etc : Bool) : Parser TextEtc :=
  if read_text_etc then readTextEtc cx
  else do
    skip (textEtcNbytes cx).toNat
    return {}

def readSymtabIfAny (symtab_size : Taddr) : Parser (List Symfunc × List CString) :=
  if symtab_size ≠ 0#64 then readSymtab symtab_size else pure ([], [])

/-- The linkinfo of the parts that are read. -/
def makeLinkinfo (cx : CxHeader) (funcrefs varrefs : List Taddr) (funcs vars : List (Taddr × Taddr))
    (strings extdata : List (BitVec 8)) (extdata_relocs : List ExtReloc)
    (extdata_funcrelocs : List Taddr) (te : TextEtc) (syms : List Symfunc × List CString) :
    Linkinfo where
  li_bss_size := cx.cx_bss_size
  li_extbss_size := cx.cx_extbss_size
  li_srcpath := cstrAt strings cx.cx_srcpath
  li_undef_funcs := funcrefs.mapIdx fun i w => ⟨cstrAt strings w, 0#64, -((i : Int) + 1)⟩
  li_undef_vars := varrefs.map fun w => ⟨cstrAt strings w, 0#64⟩
  li_funcs := funcs.map fun w => ⟨cstrAt strings w.1, w.2⟩
  li_vars := vars.map fun w => ⟨cstrAt strings w.1, w.2⟩
  li_extdata := extdata
  li_extdata_relocs := extdata_relocs
  li_extdata_funcrelocs := extdata_funcrelocs
  li_static_rps := te.te_static_rps
  li_static_funcrps := te.te_static_funcrps
  li_ext_relocs := te.te_ext_relocs
  li_funcaddrs := te.te_funcaddrs
  li_text := te.te_text
  li_data := te.te_data
  li_symfuncs := syms.1
  li_symvars := syms.2

/-- `read_cx` behind the header. -/
def readCx (cx : CxHeader) (read_text_etc : Bool) : Parser LinklistElt := do
  let funcrefs ← many cx.cx_nfuncrefs.toNat word
  let varrefs ← many cx.cx_nvarrefs.toNat word
  let funcs ← readLinknames cx.cx_nfuncs
  let vars ← readLinknames cx.cx_nvars
  let strings ← bytes cx.cx_strings_size.toNat
  let extdata ← bytes cx.cx_extdata_size.toNat
  let extdata_relocs ← readExtRelocs cx.cx_n_extdata_relocs
  let extdata_funcrelocs ← readStaticRelocs cx.cx_n_extdata_funcrelocs
  let te ← readOrSkipText cx read_text_etc
  let syms ← readSymtabIfAny cx.cx_symtab_size
  return {
    ll_offset := 0#64
    ll_cx := cx
    ll_linkinfo := makeLinkinfo cx funcrefs varrefs funcs vars strings extdata extdata_relocs
      extdata_funcrelocs te syms }

/-- The loop of `read_library` from the member behind the header `cx`, whose offset is `offset`
in a file of `size` bytes. The fuel bounds the number of members. -/
def readLibrary (read_text_etc : Bool) (size : Nat) :
    Nat → CxHeader → Nat → Parser (List LinklistElt)
  | 0, _, _ => failure
  | fuel + 1, cx, offset => do
    let ll ← readCx cx read_text_etc
    let ll := { ll with ll_offset := BitVec.ofNat 64 offset }
    let next := size - (← get).length
    let (cx, nbytes) ← getHeader
    if nbytes = 0#64 then return [ll]
    else
      let lls ← readLibrary read_text_etc size fuel cx next
      return ll :: lls

/-- `ci_read_cx_file` on the bytes of a file. -/
def ciReadCxFile (file : List (BitVec 8)) (read_text_etc : Bool) : Option (List LinklistElt) :=
  match getHeader file with
  | none => none
  | some ((cx, size), rest) =>
    if size = 0#64 then none
    else if file.length = size.toNat then
      (readCx cx read_text_etc rest).map fun (ll, _) => [ll]
    else if size.toNat < file.length then
      (readLibrary read_text_etc file.length file.length cx 0 rest).map (·.1)
    else none

end ups_rules.cx_file
