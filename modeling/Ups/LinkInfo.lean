-- The data that `ci_compile` hands to the linker (cx_link.h, xc_load.h): the names a file
-- defines and uses, its sections and its relocations. Counts that the source keeps beside
-- a list are lengths here, except where the linker copies them from the file header.
import Mathlib.Data.List.Basic

namespace ups_rules.link_info

/-- A C string without its NUL byte. -/
abbrev CString := List (BitVec 8)

/-- `taddr_t` and `size_t`, both an unsigned long. -/
abbrev Taddr := BitVec 64

/-- A function that is referenced but not defined (`libfunc_t`). -/
structure Libfunc where
  lf_name : CString
  lf_addr : Taddr
  lf_index : Int
deriving DecidableEq, Repr, Inhabited

structure Linkname where
  ln_name : CString
  ln_addr : Taddr
deriving DecidableEq, Repr, Inhabited

/-- A relocation by the address of the external variable `er_index`, or by the
address of the data of the file itself when `er_index` is -1. -/
structure ExtReloc where
  er_index : BitVec 32
  er_location : Taddr
deriving DecidableEq, Repr, Inhabited

structure LnumEntry where
  le_addr : Taddr
  le_lnum : BitVec 32
deriving DecidableEq, Repr, Inhabited

structure Symfunc where
  sf_name : CString
  sf_addr : Taddr
  sf_letab : List LnumEntry
deriving DecidableEq, Repr, Inhabited

/-- All that the linker needs of one compiled file (`linkinfo_t`). A list of
`reloc_pos_t` is the list of its `rp_location` fields. -/
structure Linkinfo where
  li_bss_size : Taddr
  li_extbss_size : Taddr
  li_srcpath : CString
  li_undef_funcs : List Libfunc
  li_undef_vars : List Linkname
  li_funcs : List Linkname
  li_vars : List Linkname
  li_extdata : List (BitVec 8)
  li_extdata_relocs : List ExtReloc
  li_extdata_funcrelocs : List Taddr
  li_static_rps : List Taddr
  li_static_funcrps : List Taddr
  li_ext_relocs : List ExtReloc
  li_funcaddrs : List Taddr
  li_text : List (BitVec 8)
  li_data : List (BitVec 8)
  li_symfuncs : List Symfunc
  li_symvars : List CString
deriving DecidableEq, Repr, Inhabited

/-- The header of a `.ocx` file (`cx_header_t`), its fields in the order of the file. -/
structure CxHeader where
  cx_magic : Taddr
  cx_version : Taddr
  cx_bss_size : Taddr
  cx_extbss_size : Taddr
  cx_srcpath : Taddr
  cx_nfuncrefs : Taddr
  cx_nvarrefs : Taddr
  cx_nfuncs : Taddr
  cx_nvars : Taddr
  cx_strings_size : Taddr
  cx_extdata_size : Taddr
  cx_n_extdata_relocs : Taddr
  cx_n_extdata_funcrelocs : Taddr
  cx_text_size : Taddr
  cx_data_size : Taddr
  cx_n_static_relocs : Taddr
  cx_n_static_funcrelocs : Taddr
  cx_n_ext_relocs : Taddr
  cx_nfuncaddrs : Taddr
  cx_symtab_size : Taddr
deriving DecidableEq, Repr, Inhabited

/-- One element of the list of files to link (`linklist_t`). -/
structure LinklistElt where
  ll_offset : Taddr
  ll_linkinfo : Linkinfo
  ll_cx : CxHeader
deriving DecidableEq, Repr, Inhabited

/-- The names that a file defines, variables and functions. -/
def Linkinfo.defs (li : Linkinfo) : List CString :=
  li.li_vars.map Linkname.ln_name ++ li.li_funcs.map Linkname.ln_name

/-- The names that a file uses and does not define. -/
def Linkinfo.refs (li : Linkinfo) : List CString :=
  li.li_undef_funcs.map Libfunc.lf_name ++ li.li_undef_vars.map Linkname.ln_name

end ups_rules.link_info
