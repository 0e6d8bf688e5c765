import Hlibc.Support.BitMove

/-!
# The tables of DES

The bit moves of `IP`, `IP_inv`, `P` and `E` in the order of the source, and
the eight substitution boxes.
-/

set_option autoImplicit false

namespace Hlibc.Des

/-- `S_table`: eight boxes of 64 entries, indexed by the six bits as they
stand in the word. -/
def sTable : List (List ℕ) := [
    [
      0xE, 0x0, 0x4, 0xF, 0xD, 0x7, 0x1, 0x4, 0x2, 0xE, 0xF, 0x2, 0xB, 0xD, 0x8, 0x1,
      0x3, 0xA, 0xA, 0x6, 0x6, 0xC, 0xC, 0xB, 0x5, 0x9, 0x9, 0x5, 0x0, 0x3, 0x7, 0x8,
      0x4, 0xF, 0x1, 0xC, 0xE, 0x8, 0x8, 0x2, 0xD, 0x4, 0x6, 0x9, 0x2, 0x1, 0xB, 0x7,
      0xF, 0x5, 0xC, 0xB, 0x9, 0x3, 0x7, 0xE, 0x3, 0xA, 0xA, 0x0, 0x5, 0x6, 0x0, 0xD],
    [
      0xF, 0x3, 0x1, 0xD, 0x8, 0x4, 0xE, 0x7, 0x6, 0xF, 0xB, 0x2, 0x3, 0x8, 0x4, 0xE,
      0x9, 0xC, 0x7, 0x0, 0x2, 0x1, 0xD, 0xA, 0xC, 0x6, 0x0, 0x9, 0x5, 0xB, 0xA, 0x5,
      0x0, 0xD, 0xE, 0x8, 0x7, 0xA, 0xB, 0x1, 0xA, 0x3, 0x4, 0xF, 0xD, 0x4, 0x1, 0x2,
      0x5, 0xB, 0x8, 0x6, 0xC, 0x7, 0x6, 0xC, 0x9, 0x0, 0x3, 0x5, 0x2, 0xE, 0xF, 0x9],
    [
      0xA, 0xD, 0x0, 0x7, 0x9, 0x0, 0xE, 0x9, 0x6, 0x3, 0x3, 0x4, 0xF, 0x6, 0x5, 0xA,
      0x1, 0x2, 0xD, 0x8, 0xC, 0x5, 0x7, 0xE, 0xB, 0xC, 0x4, 0xB, 0x2, 0xF, 0x8, 0x1,
      0xD, 0x1, 0x6, 0xA, 0x4, 0xD, 0x9, 0x0, 0x8, 0x6, 0xF, 0x9, 0x3, 0x8, 0x0, 0x7,
      0xB, 0x4, 0x1, 0xF, 0x2, 0xE, 0xC, 0x3, 0x5, 0xB, 0xA, 0x5, 0xE, 0x2, 0x7, 0xC],
    [
      0x7, 0xD, 0xD, 0x8, 0xE, 0xB, 0x3, 0x5, 0x0, 0x6, 0x6, 0xF, 0x9, 0x0, 0xA, 0x3,
      0x1, 0x4, 0x2, 0x7, 0x8, 0x2, 0x5, 0xC, 0xB, 0x1, 0xC, 0xA, 0x4, 0xE, 0xF, 0x9,
      0xA, 0x3, 0x6, 0xF, 0x9, 0x0, 0x0, 0x6, 0xC, 0xA, 0xB, 0x1, 0x7, 0xD, 0xD, 0x8,
      0xF, 0x9, 0x1, 0x4, 0x3, 0x5, 0xE, 0xB, 0x5, 0xC, 0x2, 0x7, 0x8, 0x2, 0x4, 0xE],
    [
      0x2, 0xE, 0xC, 0xB, 0x4, 0x2, 0x1, 0xC, 0x7, 0x4, 0xA, 0x7, 0xB, 0xD, 0x6, 0x1,
      0x8, 0x5, 0x5, 0x0, 0x3, 0xF, 0xF, 0xA, 0xD, 0x3, 0x0, 0x9, 0xE, 0x8, 0x9, 0x6,
      0x4, 0xB, 0x2, 0x8, 0x1, 0xC, 0xB, 0x7, 0xA, 0x1, 0xD, 0xE, 0x7, 0x2, 0x8, 0xD,
      0xF, 0x6, 0x9, 0xF, 0xC, 0x0, 0x5, 0x9, 0x6, 0xA, 0x3, 0x4, 0x0, 0x5, 0xE, 0x3],
    [
      0xC, 0xA, 0x1, 0xF, 0xA, 0x4, 0xF, 0x2, 0x9, 0x7, 0x2, 0xC, 0x6, 0x9, 0x8, 0x5,
      0x0, 0x6, 0xD, 0x1, 0x3, 0xD, 0x4, 0xE, 0xE, 0x0, 0x7, 0xB, 0x5, 0x3, 0xB, 0x8,
      0x9, 0x4, 0xE, 0x3, 0xF, 0x2, 0x5, 0xC, 0x2, 0x9, 0x8, 0x5, 0xC, 0xF, 0x3, 0xA,
      0x7, 0xB, 0x0, 0xE, 0x4, 0x1, 0xA, 0x7, 0x1, 0x6, 0xD, 0x0, 0xB, 0x8, 0x6, 0xD],
    [
      0x4, 0xD, 0xB, 0x0, 0x2, 0xB, 0xE, 0x7, 0xF, 0x4, 0x0, 0x9, 0x8, 0x1, 0xD, 0xA,
      0x3, 0xE, 0xC, 0x3, 0x9, 0x5, 0x7, 0xC, 0x5, 0x2, 0xA, 0xF, 0x6, 0x8, 0x1, 0x6,
      0x1, 0x6, 0x4, 0xB, 0xB, 0xD, 0xD, 0x8, 0xC, 0x1, 0x3, 0x4, 0x7, 0xA, 0xE, 0x7,
      0xA, 0x9, 0xF, 0x5, 0x6, 0x0, 0x8, 0xF, 0x0, 0xE, 0x5, 0x2, 0x9, 0x3, 0x2, 0xC],
    [
      0xD, 0x1, 0x2, 0xF, 0x8, 0xD, 0x4, 0x8, 0x6, 0xA, 0xF, 0x3, 0xB, 0x7, 0x1, 0x4,
      0xA, 0xC, 0x9, 0x5, 0x3, 0x6, 0xE, 0xB, 0x5, 0x0, 0x0, 0xE, 0xC, 0x9, 0x7, 0x2,
      0x7, 0x2, 0xB, 0x1, 0x4, 0xE, 0x1, 0x7, 0x9, 0x4, 0xC, 0xA, 0xE, 0x8, 0x2, 0xD,
      0x0, 0xF, 0x6, 0xC, 0xA, 0x9, 0xD, 0x0, 0xF, 0x3, 0x3, 0x5, 0x5, 0x6, 0x8, 0xB]]

/-- The moves of `IP`. -/
def ipMoves : List (ℕ × ℕ) := [
    (0x06, 0x3F), (0x0E, 0x3E), (0x16, 0x3D), (0x1E, 0x3C), (0x26, 0x3B),
    (0x2E, 0x3A), (0x36, 0x39), (0x3E, 0x38), (0x04, 0x37), (0x0C, 0x36),
    (0x14, 0x35), (0x1C, 0x34), (0x24, 0x33), (0x2C, 0x32), (0x34, 0x31),
    (0x3C, 0x30), (0x02, 0x2F), (0x0A, 0x2E), (0x12, 0x2D), (0x1A, 0x2C),
    (0x22, 0x2B), (0x2A, 0x2A), (0x32, 0x29), (0x3A, 0x28), (0x00, 0x27),
    (0x08, 0x26), (0x10, 0x25), (0x18, 0x24), (0x20, 0x23), (0x28, 0x22),
    (0x30, 0x21), (0x38, 0x20), (0x07, 0x1F), (0x0F, 0x1E), (0x17, 0x1D),
    (0x1F, 0x1C), (0x27, 0x1B), (0x2F, 0x1A), (0x37, 0x19), (0x3F, 0x18),
    (0x05, 0x17), (0x0D, 0x16), (0x15, 0x15), (0x1D, 0x14), (0x25, 0x13),
    (0x2D, 0x12), (0x35, 0x11), (0x3D, 0x10), (0x03, 0x0F), (0x0B, 0x0E),
    (0x13, 0x0D), (0x1B, 0x0C), (0x23, 0x0B), (0x2B, 0x0A), (0x33, 0x09),
    (0x3B, 0x08), (0x01, 0x07), (0x09, 0x06), (0x11, 0x05), (0x19, 0x04),
    (0x21, 0x03), (0x29, 0x02), (0x31, 0x01), (0x39, 0x00)]

/-- The moves of `IP_inv`. -/
def ipInvMoves : List (ℕ × ℕ) := [
    (0x18, 0x3F), (0x38, 0x3E), (0x10, 0x3D), (0x30, 0x3C), (0x08, 0x3B),
    (0x28, 0x3A), (0x00, 0x39), (0x20, 0x38), (0x19, 0x37), (0x39, 0x36),
    (0x11, 0x35), (0x31, 0x34), (0x09, 0x33), (0x29, 0x32), (0x01, 0x31),
    (0x21, 0x30), (0x1A, 0x2F), (0x3A, 0x2E), (0x12, 0x2D), (0x32, 0x2C),
    (0x0A, 0x2B), (0x2A, 0x2A), (0x02, 0x29), (0x22, 0x28), (0x1B, 0x27),
    (0x3B, 0x26), (0x13, 0x25), (0x33, 0x24), (0x0B, 0x23), (0x2B, 0x22),
    (0x03, 0x21), (0x23, 0x20), (0x1C, 0x1F), (0x3C, 0x1E), (0x14, 0x1D),
    (0x34, 0x1C), (0x0C, 0x1B), (0x2C, 0x1A), (0x04, 0x19), (0x24, 0x18),
    (0x1D, 0x17), (0x3D, 0x16), (0x15, 0x15), (0x35, 0x14), (0x0D, 0x13),
    (0x2D, 0x12), (0x05, 0x11), (0x25, 0x10), (0x1E, 0x0F), (0x3E, 0x0E),
    (0x16, 0x0D), (0x36, 0x0C), (0x0E, 0x0B), (0x2E, 0x0A), (0x06, 0x09),
    (0x26, 0x08), (0x1F, 0x07), (0x3F, 0x06), (0x17, 0x05), (0x37, 0x04),
    (0x0F, 0x03), (0x2F, 0x02), (0x07, 0x01), (0x27, 0x00)]

/-- The moves of `P`. -/
def pMoves : List (ℕ × ℕ) := [
    (0x10, 0x1F), (0x19, 0x1E), (0x0C, 0x1D), (0x0B, 0x1C), (0x03, 0x1B),
    (0x14, 0x1A), (0x04, 0x19), (0x0F, 0x18), (0x1F, 0x17), (0x11, 0x16),
    (0x09, 0x15), (0x06, 0x14), (0x1B, 0x13), (0x0E, 0x12), (0x01, 0x11),
    (0x16, 0x10), (0x1E, 0x0F), (0x18, 0x0E), (0x08, 0x0D), (0x12, 0x0C),
    (0x00, 0x0B), (0x05, 0x0A), (0x1D, 0x09), (0x17, 0x08), (0x0D, 0x07),
    (0x13, 0x06), (0x02, 0x05), (0x1A, 0x04), (0x0A, 0x03), (0x15, 0x02),
    (0x1C, 0x01), (0x07, 0x00)]

/-- The moves of `E`. -/
def eMoves : List (ℕ × ℕ) := [
    (0x00, 0x2F), (0x1F, 0x2E), (0x1E, 0x2D), (0x1D, 0x2C), (0x1C, 0x2B),
    (0x1B, 0x2A), (0x1C, 0x29), (0x1B, 0x28), (0x1A, 0x27), (0x19, 0x26),
    (0x18, 0x25), (0x17, 0x24), (0x18, 0x23), (0x17, 0x22), (0x16, 0x21),
    (0x15, 0x20), (0x14, 0x1F), (0x13, 0x1E), (0x14, 0x1D), (0x13, 0x1C),
    (0x12, 0x1B), (0x11, 0x1A), (0x10, 0x19), (0x0F, 0x18), (0x10, 0x17),
    (0x0F, 0x16), (0x0E, 0x15), (0x0D, 0x14), (0x0C, 0x13), (0x0B, 0x12),
    (0x0C, 0x11), (0x0B, 0x10), (0x0A, 0x0F), (0x09, 0x0E), (0x08, 0x0D),
    (0x07, 0x0C), (0x08, 0x0B), (0x07, 0x0A), (0x06, 0x09), (0x05, 0x08),
    (0x04, 0x07), (0x03, 0x06), (0x04, 0x05), (0x03, 0x04), (0x02, 0x03),
    (0x01, 0x02), (0x00, 0x01), (0x1F, 0x00)]

end Hlibc.Des
