import Mathlib.Data.Nat.Basic

/-!
# The check values of BACnet frames

`bacnet_crc8` and `bacnet_crc16` of `bacnet_crc.c`. The tables have eight entries in a number, in
the order of the source.
-/

namespace Bacnet

abbrev Byte := BitVec 8

/-- `bacnet_crc8_lut`. -/
def bacnetCrc8Lut : List Nat :=
  [0x00feff01fd0302fc, 0xf90706f804fafb05, 0xf10f0ef00cf2f30d, 0x08f6f709f50b0af4, 0xe11f1ee01ce2e31d,
  0x18e6e719e51b1ae4, 0x10eeef11ed1312ec, 0xe91716e814eaeb15, 0xc13f3ec03cc2c33d, 0x38c6c739c53b3ac4,
  0x30cecf31cd3332cc, 0xc93736c834cacb35, 0x20dedf21dd2322dc, 0xd92726d824dadb25, 0xd12f2ed02cd2d32d,
  0x28d6d729d52b2ad4, 0x817f7e807c82837d, 0x78868779857b7a84, 0x708e8f718d73728c, 0x89777688748a8b75,
  0x609e9f619d63629c, 0x99676698649a9b65, 0x916f6e906c92936d, 0x68969769956b6a94, 0x40bebf41bd4342bc,
  0xb94746b844babb45, 0xb14f4eb04cb2b34d, 0x48b6b749b54b4ab4, 0xa15f5ea05ca2a35d, 0x58a6a759a55b5aa4,
  0x50aeaf51ad5352ac, 0xa95756a854aaab55]

/-- `bacnet_crc16_lut`. -/
def bacnetCrc16Lut : List Nat :=
  [0x000011892312329b462457ad653674bf, 0x8c489dc1af5abed3ca6cdbe5e97ef8f7,
  0x108101083393221a56a5472c75b7643e, 0x9cc98d40bfdbae52daedcb64f9ffe876,
  0x2102308b02101399672676af443455bd, 0xad4abcc38e589fd1eb6efae7c87cd9f5,
  0x3183200a1291031877a7662e54b5453c, 0xbdcbac429ed98f50fbefea66d8fdc974,
  0x4204538d6116709f042015a9273236bb, 0xce4cdfc5ed5efcd7886899e1ab7abaf3,
  0x5285430c7197601e14a1052837b3263a, 0xdecdcf44fddfec5698e98960bbfbaa72,
  0x6306728f4014519d252234ab063017b9, 0xef4efec7cc5cddd5a96ab8e38a789bf1,
  0x7387620e5095411c35a3242a16b10738, 0xffcfee46dcddcd54b9eba8629af98b70,
  0x84089581a71ab693c22cd3a5e13ef0b7, 0x084019c92b523adb4e645fed6d767cff,
  0x94898500b79ba612d2adc324f1bfe036, 0x18c109483bd32a5a5ee54f6c7df76c7e,
  0xa50ab48386189791e32ef2a7c03cd1b5, 0x294238cb0a501bd96f667eef4c745dfd,
  0xb58ba40296998710f3afe226d0bdc134, 0x39c3284a1ad10b587fe76e6e5cf54d7c,
  0xc60cd785e51ef497802891a1a33ab2b3, 0x4a445bcd695678df0c601de92f723efb,
  0xd68dc704f59fe41690a98120b3bba232, 0x5ac54b4c79d7685e1ce10d683ff32e7a,
  0xe70ef687c41cd595a12ab0a3823893b1, 0x6b467acf485459dd2d623ceb0e701ff9,
  0xf78fe606d49dc514b1aba02292b98330, 0x7bc76a4e58d5495c3de32c6a1ef10f78]

/-- An entry of a table with `w` bits an entry. -/
def lutEntry (w : Nat) (lut : List Nat) (i : Byte) : BitVec w :=
  BitVec.ofNat w (lut.getD (i.toNat / 8) 0 >>> (w * (7 - i.toNat % 8)))

/-- `bacnet_crc8`. -/
def bacnetCrc8 (crc : Byte) (buf : List Byte) : Byte :=
  buf.foldl (fun crc c => lutEntry 8 bacnetCrc8Lut (crc ^^^ c)) crc

/-- `bacnet_crc16`. -/
def bacnetCrc16 (crc : BitVec 16) (buf : List Byte) : BitVec 16 :=
  buf.foldl (fun crc c => crc >>> 8 ^^^ lutEntry 16 bacnetCrc16Lut (crc.setWidth 8 ^^^ c)) crc

end Bacnet
