import Mathlib

/-!
# Pages of memory

The constants and functions of `MemoryLayout` on pages, and the loops over the pages
of a range of addresses.
-/

namespace HobbyOS

/-- `MemoryLayout::PAGE_SIZE`. -/
def pageSize : ℕ := 4096

/-- `MemoryLayout::pageRoundUp`. -/
def pageRoundUp (addr : ℕ) : ℕ := (addr + (pageSize - 1)) % 2 ^ 64 / pageSize * pageSize

/-- The number of rounds of `for (va = vaStart; va < vaEnd; va += PAGE_SIZE)`. -/
def pageCount (vaStart vaEnd : ℕ) : ℕ := (vaEnd - vaStart + (pageSize - 1)) / pageSize

/-- `a - b` on `uint64_t`. -/
def sub64 (a b : ℕ) : ℕ := if b ≤ a then a - b else 2 ^ 64 - (b - a)

end HobbyOS
