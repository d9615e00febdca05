import IncrementalParsing.Unicode.Coding

/-!
# Wide characters

The characters that take two columns of a terminal.  The data are those of Unicode 17.
-/

namespace IncrementalParsing.Unicode

/-- The ranges of the wide characters, as gaps and lengths. -/
def wideRanges : List (Nat × Nat) := decodePairs
  ["bbaAfPbblKBNBlODDACAcaJBbFBbKHbALcLAKFDANAIBbBBFBIAFAbFAHBBAEACAHAEBbMAcDABAECBAdNCbIAOAdfLB",
   "dDAEAdcKbJBfIMnFbKeOCfFCgGFcKBfNBfFJcPBcHIhcdMDdGejJbMciDclkDcbfMbpPdbAJbGcCBbCBDjFfPhPGgppJ",
   "ELGJbmnFcJbPgBhCcbpNDBGBBBbcCPAbNCCAODIbiLcaaEfGJbGbmiNAmKAlOACJgFCNcLEIHBOFjKcAMIBeFBbFMcKE",
   "EMbADADeGBABlKCdONDBbHbCAbKBNAfGfEdAeFGADCCDDDLBHIoDLEAbbLcOBJBlIhAMDKDdIBAEPCLEJfaHpppNCppp",
   "N"]

end IncrementalParsing.Unicode
