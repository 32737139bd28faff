import Verbatim.Data

/-!
# Listings

Rows of data are listed one a line, with tabs between the cells and no heading, so that other programs can read them.
-/

namespace Verbatim

variable {ι : Type}

def rowText (foreign : ι → String) (row : List (Data ι)) : String :=
  "\t".intercalate (row.map fun d => d.cell foreign) ++ "\n"

def listing (foreign : ι → String) (rows : List (List (Data ι))) : String :=
  String.join (rows.map (rowText foreign))

/-- Whether rows are listed in a decorated form: if that is asked for and can be done, and the stream is a terminal unless
that does not matter. -/
def prefersDecoration (requested available forced isTerminal : Bool) : Bool :=
  requested && available && (forced || isTerminal)

end Verbatim
