import Hlibc.Crypto.Des.Cipher
import Mathlib.Data.Int.Notation

/-!
# The round keys of DES

Sixteen selections of 48 bits of the key, each in the order of the source, and
the context that they fill.
-/

set_option autoImplicit false

namespace Hlibc.Des

/-- The moves of `KS_0`. -/
def ks0Moves : List (ℕ × ℕ) := [
    (0x36, 0x2F), (0x0D, 0x2E), (0x1E, 0x2D), (0x04, 0x2C), (0x0F, 0x2B), (0x2F, 0x2A),
    (0x1F, 0x29), (0x07, 0x28), (0x3E, 0x27), (0x37, 0x26), (0x2D, 0x25), (0x16, 0x24),
    (0x3D, 0x23), (0x1D, 0x22), (0x26, 0x21), (0x27, 0x20), (0x14, 0x1F), (0x06, 0x1E),
    (0x05, 0x1D), (0x3F, 0x1C), (0x1C, 0x1B), (0x25, 0x1A), (0x2E, 0x19), (0x17, 0x18),
    (0x2A, 0x17), (0x24, 0x16), (0x19, 0x15), (0x0A, 0x14), (0x1B, 0x13), (0x3C, 0x12),
    (0x11, 0x11), (0x22, 0x10), (0x3B, 0x0F), (0x0B, 0x0E), (0x29, 0x0D), (0x23, 0x0C),
    (0x03, 0x0B), (0x2B, 0x0A), (0x1A, 0x09), (0x01, 0x08), (0x31, 0x07), (0x2C, 0x06),
    (0x13, 0x05), (0x32, 0x04), (0x33, 0x03), (0x02, 0x02), (0x09, 0x01), (0x21, 0x00)]

/-- The moves of `KS_1`. -/
def ks1Moves : List (ℕ × ℕ) := [
    (0x3E, 0x2F), (0x15, 0x2E), (0x26, 0x2D), (0x0C, 0x2C), (0x17, 0x2B), (0x37, 0x2A),
    (0x27, 0x29), (0x0F, 0x28), (0x05, 0x27), (0x3F, 0x26), (0x35, 0x25), (0x1E, 0x24),
    (0x04, 0x23), (0x25, 0x22), (0x2E, 0x21), (0x2F, 0x20), (0x1C, 0x1F), (0x0E, 0x1E),
    (0x0D, 0x1D), (0x06, 0x1C), (0x07, 0x1B), (0x2D, 0x1A), (0x36, 0x19), (0x1F, 0x18),
    (0x32, 0x17), (0x2C, 0x16), (0x21, 0x15), (0x12, 0x14), (0x23, 0x13), (0x01, 0x12),
    (0x19, 0x11), (0x2A, 0x10), (0x24, 0x0F), (0x13, 0x0E), (0x31, 0x0D), (0x2B, 0x0C),
    (0x0B, 0x0B), (0x33, 0x0A), (0x22, 0x09), (0x09, 0x08), (0x39, 0x07), (0x34, 0x06),
    (0x1B, 0x05), (0x3A, 0x04), (0x3B, 0x03), (0x0A, 0x02), (0x11, 0x01), (0x29, 0x00)]

/-- The moves of `KS_2`. -/
def ks2Moves : List (ℕ × ℕ) := [
    (0x0D, 0x2F), (0x25, 0x2E), (0x36, 0x2D), (0x1C, 0x2C), (0x27, 0x2B), (0x06, 0x2A),
    (0x37, 0x29), (0x1F, 0x28), (0x15, 0x27), (0x0E, 0x26), (0x04, 0x25), (0x2E, 0x24),
    (0x14, 0x23), (0x35, 0x22), (0x3E, 0x21), (0x3F, 0x20), (0x0F, 0x1F), (0x1E, 0x1E),
    (0x1D, 0x1D), (0x16, 0x1C), (0x17, 0x1B), (0x3D, 0x1A), (0x05, 0x19), (0x2F, 0x18),
    (0x03, 0x17), (0x3C, 0x16), (0x31, 0x15), (0x22, 0x14), (0x33, 0x13), (0x11, 0x12),
    (0x29, 0x11), (0x3A, 0x10), (0x34, 0x0F), (0x23, 0x0E), (0x02, 0x0D), (0x3B, 0x0C),
    (0x1B, 0x0B), (0x24, 0x0A), (0x32, 0x09), (0x19, 0x08), (0x0A, 0x07), (0x01, 0x06),
    (0x2B, 0x05), (0x0B, 0x04), (0x2C, 0x03), (0x1A, 0x02), (0x21, 0x01), (0x39, 0x00)]

/-- The moves of `KS_3`. -/
def ks3Moves : List (ℕ × ℕ) := [
    (0x1D, 0x2F), (0x35, 0x2E), (0x05, 0x2D), (0x0F, 0x2C), (0x37, 0x2B), (0x16, 0x2A),
    (0x06, 0x29), (0x2F, 0x28), (0x25, 0x27), (0x1E, 0x26), (0x14, 0x25), (0x3E, 0x24),
    (0x07, 0x23), (0x04, 0x22), (0x0D, 0x21), (0x0E, 0x20), (0x1F, 0x1F), (0x2E, 0x1E),
    (0x2D, 0x1D), (0x26, 0x1C), (0x27, 0x1B), (0x0C, 0x1A), (0x15, 0x19), (0x3F, 0x18),
    (0x13, 0x17), (0x09, 0x16), (0x02, 0x15), (0x32, 0x14), (0x24, 0x13), (0x21, 0x12),
    (0x39, 0x11), (0x0B, 0x10), (0x01, 0x0F), (0x33, 0x0E), (0x12, 0x0D), (0x2C, 0x0C),
    (0x2B, 0x0B), (0x34, 0x0A), (0x03, 0x09), (0x29, 0x08), (0x1A, 0x07), (0x11, 0x06),
    (0x3B, 0x05), (0x1B, 0x04), (0x3C, 0x03), (0x2A, 0x02), (0x31, 0x01), (0x0A, 0x00)]

/-- The moves of `KS_4`. -/
def ks4Moves : List (ℕ × ℕ) := [
    (0x2D, 0x2F), (0x04, 0x2E), (0x15, 0x2D), (0x1F, 0x2C), (0x06, 0x2B), (0x26, 0x2A),
    (0x16, 0x29), (0x3F, 0x28), (0x35, 0x27), (0x2E, 0x26), (0x07, 0x25), (0x0D, 0x24),
    (0x17, 0x23), (0x14, 0x22), (0x1D, 0x21), (0x1E, 0x20), (0x2F, 0x1F), (0x3E, 0x1E),
    (0x3D, 0x1D), (0x36, 0x1C), (0x37, 0x1B), (0x1C, 0x1A), (0x25, 0x19), (0x0E, 0x18),
    (0x23, 0x17), (0x19, 0x16), (0x12, 0x15), (0x03, 0x14), (0x34, 0x13), (0x31, 0x12),
    (0x0A, 0x11), (0x1B, 0x10), (0x11, 0x0F), (0x24, 0x0E), (0x22, 0x0D), (0x3C, 0x0C),
    (0x3B, 0x0B), (0x01, 0x0A), (0x13, 0x09), (0x39, 0x08), (0x2A, 0x07), (0x21, 0x06),
    (0x2C, 0x05), (0x2B, 0x04), (0x09, 0x03), (0x3A, 0x02), (0x02, 0x01), (0x1A, 0x00)]

/-- The moves of `KS_5`. -/
def ks5Moves : List (ℕ × ℕ) := [
    (0x3D, 0x2F), (0x14, 0x2E), (0x25, 0x2D), (0x2F, 0x2C), (0x16, 0x2B), (0x36, 0x2A),
    (0x26, 0x29), (0x0E, 0x28), (0x04, 0x27), (0x3E, 0x26), (0x17, 0x25), (0x1D, 0x24),
    (0x27, 0x23), (0x07, 0x22), (0x2D, 0x21), (0x2E, 0x20), (0x3F, 0x1F), (0x0D, 0x1E),
    (0x0C, 0x1D), (0x05, 0x1C), (0x06, 0x1B), (0x0F, 0x1A), (0x35, 0x19), (0x1E, 0x18),
    (0x33, 0x17), (0x29, 0x16), (0x22, 0x15), (0x13, 0x14), (0x01, 0x13), (0x02, 0x12),
    (0x1A, 0x11), (0x2B, 0x10), (0x21, 0x0F), (0x34, 0x0E), (0x32, 0x0D), (0x09, 0x0C),
    (0x2C, 0x0B), (0x11, 0x0A), (0x23, 0x09), (0x0A, 0x08), (0x3A, 0x07), (0x31, 0x06),
    (0x3C, 0x05), (0x3B, 0x04), (0x19, 0x03), (0x0B, 0x02), (0x12, 0x01), (0x2A, 0x00)]

/-- The moves of `KS_6`. -/
def ks6Moves : List (ℕ × ℕ) := [
    (0x0C, 0x2F), (0x07, 0x2E), (0x35, 0x2D), (0x3F, 0x2C), (0x26, 0x2B), (0x05, 0x2A),
    (0x36, 0x29), (0x1E, 0x28), (0x14, 0x27), (0x0D, 0x26), (0x27, 0x25), (0x2D, 0x24),
    (0x37, 0x23), (0x17, 0x22), (0x3D, 0x21), (0x3E, 0x20), (0x0E, 0x1F), (0x1D, 0x1E),
    (0x1C, 0x1D), (0x15, 0x1C), (0x16, 0x1B), (0x1F, 0x1A), (0x04, 0x19), (0x2E, 0x18),
    (0x24, 0x17), (0x39, 0x16), (0x32, 0x15), (0x23, 0x14), (0x11, 0x13), (0x12, 0x12),
    (0x2A, 0x11), (0x3B, 0x10), (0x31, 0x0F), (0x01, 0x0E), (0x03, 0x0D), (0x19, 0x0C),
    (0x3C, 0x0B), (0x21, 0x0A), (0x33, 0x09), (0x1A, 0x08), (0x0B, 0x07), (0x02, 0x06),
    (0x09, 0x05), (0x2C, 0x04), (0x29, 0x03), (0x1B, 0x02), (0x22, 0x01), (0x3A, 0x00)]

/-- The moves of `KS_7`. -/
def ks7Moves : List (ℕ × ℕ) := [
    (0x1C, 0x2F), (0x17, 0x2E), (0x04, 0x2D), (0x0E, 0x2C), (0x36, 0x2B), (0x15, 0x2A),
    (0x05, 0x29), (0x2E, 0x28), (0x07, 0x27), (0x1D, 0x26), (0x37, 0x25), (0x3D, 0x24),
    (0x06, 0x23), (0x27, 0x22), (0x0C, 0x21), (0x0D, 0x20), (0x1E, 0x1F), (0x2D, 0x1E),
    (0x0F, 0x1D), (0x25, 0x1C), (0x26, 0x1B), (0x2F, 0x1A), (0x14, 0x19), (0x3E, 0x18),
    (0x34, 0x17), (0x0A, 0x16), (0x03, 0x15), (0x33, 0x14), (0x21, 0x13), (0x22, 0x12),
    (0x3A, 0x11), (0x2C, 0x10), (0x02, 0x0F), (0x11, 0x0E), (0x13, 0x0D), (0x29, 0x0C),
    (0x09, 0x0B), (0x31, 0x0A), (0x24, 0x09), (0x2A, 0x08), (0x1B, 0x07), (0x12, 0x06),
    (0x19, 0x05), (0x3C, 0x04), (0x39, 0x03), (0x2B, 0x02), (0x32, 0x01), (0x0B, 0x00)]

/-- The moves of `KS_8`. -/
def ks8Moves : List (ℕ × ℕ) := [
    (0x07, 0x2F), (0x1F, 0x2E), (0x0C, 0x2D), (0x16, 0x2C), (0x3E, 0x2B), (0x1D, 0x2A),
    (0x0D, 0x29), (0x36, 0x28), (0x0F, 0x27), (0x25, 0x26), (0x3F, 0x25), (0x04, 0x24),
    (0x0E, 0x23), (0x2F, 0x22), (0x14, 0x21), (0x15, 0x20), (0x26, 0x1F), (0x35, 0x1E),
    (0x17, 0x1D), (0x2D, 0x1C), (0x2E, 0x1B), (0x37, 0x1A), (0x1C, 0x19), (0x05, 0x18),
    (0x3C, 0x17), (0x12, 0x16), (0x0B, 0x15), (0x3B, 0x14), (0x29, 0x13), (0x2A, 0x12),
    (0x03, 0x11), (0x34, 0x10), (0x0A, 0x0F), (0x19, 0x0E), (0x1B, 0x0D), (0x31, 0x0C),
    (0x11, 0x0B), (0x39, 0x0A), (0x2C, 0x09), (0x32, 0x08), (0x23, 0x07), (0x1A, 0x06),
    (0x21, 0x05), (0x01, 0x04), (0x02, 0x03), (0x33, 0x02), (0x3A, 0x01), (0x13, 0x00)]

/-- The moves of `KS_9`. -/
def ks9Moves : List (ℕ × ℕ) := [
    (0x17, 0x2F), (0x2F, 0x2E), (0x1C, 0x2D), (0x26, 0x2C), (0x0D, 0x2B), (0x2D, 0x2A),
    (0x1D, 0x29), (0x05, 0x28), (0x1F, 0x27), (0x35, 0x26), (0x0E, 0x25), (0x14, 0x24),
    (0x1E, 0x23), (0x3F, 0x22), (0x07, 0x21), (0x25, 0x20), (0x36, 0x1F), (0x04, 0x1E),
    (0x27, 0x1D), (0x3D, 0x1C), (0x3E, 0x1B), (0x06, 0x1A), (0x0F, 0x19), (0x15, 0x18),
    (0x09, 0x17), (0x22, 0x16), (0x1B, 0x15), (0x2C, 0x14), (0x39, 0x13), (0x3A, 0x12),
    (0x13, 0x11), (0x01, 0x10), (0x1A, 0x0F), (0x29, 0x0E), (0x2B, 0x0D), (0x02, 0x0C),
    (0x21, 0x0B), (0x0A, 0x0A), (0x3C, 0x09), (0x03, 0x08), (0x33, 0x07), (0x2A, 0x06),
    (0x31, 0x05), (0x11, 0x04), (0x12, 0x03), (0x24, 0x02), (0x0B, 0x01), (0x23, 0x00)]

/-- The moves of `KS_10`. -/
def ks10Moves : List (ℕ × ℕ) := [
    (0x27, 0x2F), (0x3F, 0x2E), (0x0F, 0x2D), (0x36, 0x2C), (0x1D, 0x2B), (0x3D, 0x2A),
    (0x2D, 0x29), (0x15, 0x28), (0x2F, 0x27), (0x04, 0x26), (0x1E, 0x25), (0x07, 0x24),
    (0x2E, 0x23), (0x0E, 0x22), (0x17, 0x21), (0x35, 0x20), (0x05, 0x1F), (0x14, 0x1E),
    (0x37, 0x1D), (0x0C, 0x1C), (0x0D, 0x1B), (0x16, 0x1A), (0x1F, 0x19), (0x25, 0x18),
    (0x19, 0x17), (0x32, 0x16), (0x2B, 0x15), (0x3C, 0x14), (0x0A, 0x13), (0x0B, 0x12),
    (0x23, 0x11), (0x11, 0x10), (0x2A, 0x0F), (0x39, 0x0E), (0x3B, 0x0D), (0x12, 0x0C),
    (0x31, 0x0B), (0x1A, 0x0A), (0x09, 0x09), (0x13, 0x08), (0x24, 0x07), (0x3A, 0x06),
    (0x02, 0x05), (0x21, 0x04), (0x22, 0x03), (0x34, 0x02), (0x1B, 0x01), (0x33, 0x00)]

/-- The moves of `KS_11`. -/
def ks11Moves : List (ℕ × ℕ) := [
    (0x37, 0x2F), (0x0E, 0x2E), (0x1F, 0x2D), (0x05, 0x2C), (0x2D, 0x2B), (0x0C, 0x2A),
    (0x3D, 0x29), (0x25, 0x28), (0x3F, 0x27), (0x14, 0x26), (0x2E, 0x25), (0x17, 0x24),
    (0x3E, 0x23), (0x1E, 0x22), (0x27, 0x21), (0x04, 0x20), (0x15, 0x1F), (0x07, 0x1E),
    (0x06, 0x1D), (0x1C, 0x1C), (0x1D, 0x1B), (0x26, 0x1A), (0x2F, 0x19), (0x35, 0x18),
    (0x29, 0x17), (0x03, 0x16), (0x3B, 0x15), (0x09, 0x14), (0x1A, 0x13), (0x1B, 0x12),
    (0x33, 0x11), (0x21, 0x10), (0x3A, 0x0F), (0x0A, 0x0E), (0x2C, 0x0D), (0x22, 0x0C),
    (0x02, 0x0B), (0x2A, 0x0A), (0x19, 0x09), (0x23, 0x08), (0x34, 0x07), (0x0B, 0x06),
    (0x12, 0x05), (0x31, 0x04), (0x32, 0x03), (0x01, 0x02), (0x2B, 0x01), (0x24, 0x00)]

/-- The moves of `KS_12`. -/
def ks12Moves : List (ℕ × ℕ) := [
    (0x06, 0x2F), (0x1E, 0x2E), (0x2F, 0x2D), (0x15, 0x2C), (0x3D, 0x2B), (0x1C, 0x2A),
    (0x0C, 0x29), (0x35, 0x28), (0x0E, 0x27), (0x07, 0x26), (0x3E, 0x25), (0x27, 0x24),
    (0x0D, 0x23), (0x2E, 0x22), (0x37, 0x21), (0x14, 0x20), (0x25, 0x1F), (0x17, 0x1E),
    (0x16, 0x1D), (0x0F, 0x1C), (0x2D, 0x1B), (0x36, 0x1A), (0x3F, 0x19), (0x04, 0x18),
    (0x39, 0x17), (0x13, 0x16), (0x2C, 0x15), (0x19, 0x14), (0x2A, 0x13), (0x2B, 0x12),
    (0x24, 0x11), (0x31, 0x10), (0x0B, 0x0F), (0x1A, 0x0E), (0x3C, 0x0D), (0x32, 0x0C),
    (0x12, 0x0B), (0x3A, 0x0A), (0x29, 0x09), (0x33, 0x08), (0x01, 0x07), (0x1B, 0x06),
    (0x22, 0x05), (0x02, 0x04), (0x03, 0x03), (0x11, 0x02), (0x3B, 0x01), (0x34, 0x00)]

/-- The moves of `KS_13`. -/
def ks13Moves : List (ℕ × ℕ) := [
    (0x16, 0x2F), (0x2E, 0x2E), (0x3F, 0x2D), (0x25, 0x2C), (0x0C, 0x2B), (0x0F, 0x2A),
    (0x1C, 0x29), (0x04, 0x28), (0x1E, 0x27), (0x17, 0x26), (0x0D, 0x25), (0x37, 0x24),
    (0x1D, 0x23), (0x3E, 0x22), (0x06, 0x21), (0x07, 0x20), (0x35, 0x1F), (0x27, 0x1E),
    (0x26, 0x1D), (0x1F, 0x1C), (0x3D, 0x1B), (0x05, 0x1A), (0x0E, 0x19), (0x14, 0x18),
    (0x0A, 0x17), (0x23, 0x16), (0x3C, 0x15), (0x29, 0x14), (0x3A, 0x13), (0x3B, 0x12),
    (0x34, 0x11), (0x02, 0x10), (0x1B, 0x0F), (0x2A, 0x0E), (0x09, 0x0D), (0x03, 0x0C),
    (0x22, 0x0B), (0x0B, 0x0A), (0x39, 0x09), (0x24, 0x08), (0x11, 0x07), (0x2B, 0x06),
    (0x32, 0x05), (0x12, 0x04), (0x13, 0x03), (0x21, 0x02), (0x2C, 0x01), (0x01, 0x00)]

/-- The moves of `KS_14`. -/
def ks14Moves : List (ℕ × ℕ) := [
    (0x26, 0x2F), (0x3E, 0x2E), (0x0E, 0x2D), (0x35, 0x2C), (0x1C, 0x2B), (0x1F, 0x2A),
    (0x0F, 0x29), (0x14, 0x28), (0x2E, 0x27), (0x27, 0x26), (0x1D, 0x25), (0x06, 0x24),
    (0x2D, 0x23), (0x0D, 0x22), (0x16, 0x21), (0x17, 0x20), (0x04, 0x1F), (0x37, 0x1E),
    (0x36, 0x1D), (0x2F, 0x1C), (0x0C, 0x1B), (0x15, 0x1A), (0x1E, 0x19), (0x07, 0x18),
    (0x1A, 0x17), (0x33, 0x16), (0x09, 0x15), (0x39, 0x14), (0x0B, 0x13), (0x2C, 0x12),
    (0x01, 0x11), (0x12, 0x10), (0x2B, 0x0F), (0x3A, 0x0E), (0x19, 0x0D), (0x13, 0x0C),
    (0x32, 0x0B), (0x1B, 0x0A), (0x0A, 0x09), (0x34, 0x08), (0x21, 0x07), (0x3B, 0x06),
    (0x03, 0x05), (0x22, 0x04), (0x23, 0x03), (0x31, 0x02), (0x3C, 0x01), (0x11, 0x00)]

/-- The moves of `KS_15`. -/
def ks15Moves : List (ℕ × ℕ) := [
    (0x2E, 0x2F), (0x05, 0x2E), (0x16, 0x2D), (0x3D, 0x2C), (0x07, 0x2B), (0x27, 0x2A),
    (0x17, 0x29), (0x1C, 0x28), (0x36, 0x27), (0x2F, 0x26), (0x25, 0x25), (0x0E, 0x24),
    (0x35, 0x23), (0x15, 0x22), (0x1E, 0x21), (0x1F, 0x20), (0x0C, 0x1F), (0x3F, 0x1E),
    (0x3E, 0x1D), (0x37, 0x1C), (0x14, 0x1B), (0x1D, 0x1A), (0x26, 0x19), (0x0F, 0x18),
    (0x22, 0x17), (0x3B, 0x16), (0x11, 0x15), (0x02, 0x14), (0x13, 0x13), (0x34, 0x12),
    (0x09, 0x11), (0x1A, 0x10), (0x33, 0x0F), (0x03, 0x0E), (0x21, 0x0D), (0x1B, 0x0C),
    (0x3A, 0x0B), (0x23, 0x0A), (0x12, 0x09), (0x3C, 0x08), (0x29, 0x07), (0x24, 0x06),
    (0x0B, 0x05), (0x2A, 0x04), (0x2B, 0x03), (0x39, 0x02), (0x01, 0x01), (0x19, 0x00)]

def ks0 (key : BitVec 64) : BitVec 64 := moveBits ks0Moves key
def ks1 (key : BitVec 64) : BitVec 64 := moveBits ks1Moves key
def ks2 (key : BitVec 64) : BitVec 64 := moveBits ks2Moves key
def ks3 (key : BitVec 64) : BitVec 64 := moveBits ks3Moves key
def ks4 (key : BitVec 64) : BitVec 64 := moveBits ks4Moves key
def ks5 (key : BitVec 64) : BitVec 64 := moveBits ks5Moves key
def ks6 (key : BitVec 64) : BitVec 64 := moveBits ks6Moves key
def ks7 (key : BitVec 64) : BitVec 64 := moveBits ks7Moves key
def ks8 (key : BitVec 64) : BitVec 64 := moveBits ks8Moves key
def ks9 (key : BitVec 64) : BitVec 64 := moveBits ks9Moves key
def ks10 (key : BitVec 64) : BitVec 64 := moveBits ks10Moves key
def ks11 (key : BitVec 64) : BitVec 64 := moveBits ks11Moves key
def ks12 (key : BitVec 64) : BitVec 64 := moveBits ks12Moves key
def ks13 (key : BitVec 64) : BitVec 64 := moveBits ks13Moves key
def ks14 (key : BitVec 64) : BitVec 64 := moveBits ks14Moves key
def ks15 (key : BitVec 64) : BitVec 64 := moveBits ks15Moves key

/-- `key_schedule`, which fills the array given. -/
def keySchedule (key : BitVec 64) : Vector (BitVec 64) 16 :=
  #v[ks0 key, ks1 key, ks2 key, ks3 key, ks4 key, ks5 key, ks6 key, ks7 key,
    ks8 key, ks9 key, ks10 key, ks11 key, ks12 key, ks13 key, ks14 key, ks15 key]

/-- `des_init`: the value returned and the context. -/
def desInit (ctx : DesContext) (key : BitVec 64) : ℤ × DesContext :=
  (0, { ctx with ks := keySchedule key })

end Hlibc.Des
