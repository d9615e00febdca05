import IncrementalParsing.Unicode.Coding

/-!
# Ages

The version of the standard in which each code point was assigned: `ageRuns` covers the code points
in order by runs of one version; `0` is none up to version 16, `i + 1` the `i`-th of `ageNames`,
which are in the order of time.
-/

namespace IncrementalParsing.Unicode

/-- The names of each version, separated by blanks. -/
def ageNames : List String :=
  ["1.1 v11", "2.0 v20", "2.1 v21", "3.0 v30", "3.1 v31", "3.2 v32", "4.0 v40", "4.1 v41",
   "5.0 v50", "5.1 v51", "5.2 v52", "6.0 v60", "6.1 v61", "6.2 v62", "6.3 v63", "7.0 v70",
   "8.0 v80", "9.0 v90", "10.0 v100", "11.0 v110", "12.0 v120", "12.1 v121", "13.0 v130",
   "14.0 v140", "15.0 v150", "15.1 v151", "16.0 v160"]

/-- Runs of one version, in order. -/
def ageRuns : List (Nat × Nat) := decodePairs
  ["bpFBDEbNBHEAGAHbBECHKINJfIBEEBHcOBAEJBEEbAHeFBIEAGHHEICHBBAEMGDKBBBKBAABCJABAbADAGBAAABAAbDB",
   "AAcLBAKGBAEBGABAEABAEABAEABAEbBBBFAGEHDIAELBAEeBBAELBAEcIBAKBEBGDEdEBBGBBBGBBBGAJbLBBEHBBIBB",
   "FJPGDJPKBLBMHbAAAcFBBAGBAbEcGBAbEABAEBABbAANAAbACAIMCJBAJIBACCIHAbKBDAAbEEBKADHANAbAEKAIABIH",
   "EKABAPAbIAIABAMbJBEKbCBCECHFIAMNBBGeHBBEEBAEOBAEbNBBHJBEEAHNEAAbNECHbKEBACHbNIbBKdAEAGNAdKJB",
   "ACbEcNLBAOLAAbLMBAAMAAKbDEAbObIAABbIEAAbLHbIANAbAKNFbABbBAbIHbCJbHKbIAbEObCAbBbKNAbAALCBAHdE",
   "BBMbBBALAMEBALBMbIBBKEMAbABLBJAIBJAbACBAAHBBABBBAbFBAAGBAAABCADBBAABAHGBBABBBACBAIHAABDABBAA",
   "EBBAbEBALBbDAbEBAAHABAHAAFBDABBBAbFBAAGBAABBAABBAABBBAABAAEBDABBBACBCAAKGADBAAABGAOBAKAbEJAC",
   "BAAGBAHABAACBAAbFBAAGBAABBAAEBBAJBAACBAACBBAABOAABCHBAJBANAHGAAbBFbDAACBAAHBBABBBAbFBAAGBAAB",
   "BAAAHDBBAHBAKBABBBACBGAAbHBBDABBAACBBKBAKBAHFMJABBAAFBCACBAADBCABBAAABAABBCABBCACBCAHBAICBDA",
   "EBCACBAADBBAAKFAABNAAILBHHEAAbACBAbEHBAACBAAbGBAAJBAbAEBBAAbIAKGBAACBAADBGABBAABKAbBBAAbIBAB",
   "BBKBAJBGAAbFHKAbCAbABBAbEHBAACBAAbGBAAJBAAEBBABHGBAACBAADBGABBFAAbIABAABBBJBAJBAABJAbJLAAbDA",
   "bABBAbHHBAACBAAbGBAMPBAMBbDAKFBAKAACBAADBAMAbCDACbCABGbCAbBBBBKBAJBFKCbCGKAAAbHBEAAbBECAbHEA",
   "AIEAAAEBAGECAAEDAFEAAAEAAHEFAJbABACELAdJBDAbMBcEABBAAABAAAbFBBAbFABAAAbFABFbFDBAbFGBAbFCBAAA",
   "BAAABBbFBBAbFMBAbFCBBAEBAAABAAFBAbJAAJBBABBBNbPAeHCAAcACAEBKDAbKCDMFCAEACAAbECCEGCAEACCEAAOE",
   "AAAKAEBICKDLBMcEAcBEAKEEAKBEAKGECKDEFKbJEdPKDLBKcFBAAANEAANBAcGBBGBIABAICNfJBELeDBELfBBFLGEA",
   "IdOEAIAEAADEBAGEAAAEAADEBAcGEAIAEAADEBAbOEAIAEAADEBAGEAAAEAADEBAGEAIGEAAbGEAIbOEAIAEAADEBAGE",
   "AIcGEAIbCEBABMBIbLECAbJIFAfEEAbBBAFbBBAALchFEILbMECAfAEHbAGAMGAbIGGAbIIAAbIbGGIAbDGLAMGAACGA",
   "ABGLAfMEAHBAJEFAJHFAOEAbIJEFAfHEAbEGAcJEAKEAeFLJAbMHBbAAALHDALHDAAHCAcJHBAEHKAcJIBLDAbJIFAJI",
   "ALCABIbPHbLIBABIdOLAAbMLBAKLFAJLFANLBAObABbHNbIdAAeLJAbIAABbLcMJBbIAbLcKKCNLKFNdDMHADMdHKCAO",
   "KCAdCKIbCBbLEAcKbEBACbEHNHAcCLDNAbDBbAAbFEAgLHfHIGJbLKObADbDAbIAbCAMALBJjKBACDKfJBFKbFBBAFBB",
   "AcFBBAFBBAHBAAABAAABAAABAAbOBBAdEBAAOBAANBBAFBAAbCBBACBAAIBAAcOBAEbGBAGFEEGBHBIAGGIEGAKAADPG",
   "BAGBAbKBAAEIHMCAKBACADCEBGDICLAMAOCbAAbBAbDAbIOAbBBBEGGAIDJAKOAdIBBEAHAIOGAIBJAKCLcPBAEAJDKA",
   "LBbBDAfKBIELGpBBNGABAEhIBAEAGbNEdDGBHKILJALKMGbADbCAbDcEBBECbLbFAKBbEAiKBbDGAHjFBJGePBHEHGbD",
   "BBHBGAIAEfFBBELGBIJGHHKIAKBLBHPIAJJKCLDKJLAMbCLAMALDMbHLAbADBAMDBBMbLBAMcCBAMABAMDBCMABALGBB",
   "MGBNGbOBCMbHBAMNBAMGIDJANAKANBMbLGDKPGpPEbpPGNHFIGJEKDJcIKCbAEKELbJbABAbPbAAAAbHcBbACbELbAAb",
   "FHbAAbDbIbEDbBObEAbFcOIAbIcOIAbIMJCKALCKDJFKBLgKIGLBNEAcMIAAANEAANBAdFIBNGAAIAMNAAMbGIIAGIAA",
   "GIAAGIAAGIAAGIAAGIAAGIAAGIAAbPKbHIDKBIbCKALJNGbABbCEbDEbEAbFCbHKbIcBAbJEAAfIELAnFEbJALEDbKdH",
   "BCECGAEABAAfDBBGBAFBBGfNBAGEAcHBAKAbDAbEAAfNBAAPBbHECMEbHPIbDKBbLIAAbKPGbMBBHAAcDBLLAHOGbLBB",
   "HAIdBBOGLBDHcOBAbGhGBDHgCBBHbOBAHbjlFEJbHdPHfbkFBbFIHKHLANIbBbEbDEbEMbHCbIeiMECAbBEBGPEAGLEA",
   "GCEAGAEIAcPLbcLKbDAbPKBMbBKHNbLKFbAAbBANfHLHAbGIDJEKBJgKKBMAbBBMBNLbAJMANCbAAbCAbEBbAFbBBbEF",
   "bFBbIEbFDbHCbLBABbIAAAbIAAEbICbLbEACbIBbHAbABNAMEKcLIAbHCAJLFAdHJHAeEKAbCHALKFAbLLBbBBbEfDKK",
   "AAKbMLCAeNLAAKLDABLbObAAAdGKIANKBAJKBADKbLLDbAeCLbHAELbGNJAFMBAFMBAFMIAGMAAGMAAcPbADbBBbABbF",
   "DbHDAePbBcNLBAJLFAclkDCLAbGLDAdALiaDAbkcNBBNdKGCLBAgJIcFAGBLAEBEAAEbIBAAEBAAABAABBAABBAAgLBP",
   "MAbIPAbgMBPbIdPBBAdFBGAAbIbPFLBAGAHBbIPGJIFADBCKGbABbBbEBBGBHJBAAbCBAADBDACBAGABAAiGBBAABAAf",
   "NBBGfNBCAFBBAFBBAFBBACBCAGBAAGBJACEADCBLHAAbJHAAbCHAABHAAOHBANHcBAhKHEACHDAcMHCAIHeKIBbABbCA",
   "ALKAbHCAAbAcOAcNKiBAbMKCAdAKOAbLbADAbOFAbADFIACbDbKFEAcKbAEAbNHAAAHcDIDANIcJAcFFBHcFFePHBAJH",
   "FAcDbCDAcDbCDAcHbAHAdDbAKAAbAKbIAAObIAAGbIAABbIAAKbIAAObIAAGbIAABbICAdDbLLAbdGbAIAbFbAJAHbAb",
   "HAFbIAAcJbIAAIbIeEAFHBAAHAAcLHAABHCAAHBAAHbFLAAILdObAHAIbAcPAbCbBAABbBEAEbBbJJBLCAAJbJKEAAKd",
   "PAdHNDABbBBNPbBBAcNbBDIAABIEAHIAACIAAbKIBbEBACIDAIIAbEGAIIGAbPLbPbAbPAcGbADALbAIAdFLCAbMLBAb",
   "KLEAHLbBbAGADbALAGbAePAeILdGAdCbBMAdCbBGAFbBcHbEHAJbEFAcFbLCAbMbLHABbLmPAbOLAAcJbHAACbHBABbH",
   "PACbLdGAAbLCbJcHbEHAcJbEbFAbJbIcFAbLbHbDAbGbFIAeNMDAbNMFbIIAAbAeBLAbIJAAbEBAbINGAJNFAdENAANN",
   "CbEAbHHAcGbAIAeINDbBAbABbHJNAbAEbBAAbDbAKAbBbAAAcKbAAbCCbJdNAGbBAAAbBAADbBAAObBAAKbBFAdKbAEA",
   "JbAFAAbBCbAAAHbABABbABAbFbAAAGbAAABbAAAEbAAAAbEIbABABbABACbABAAbBFAAbAEAGbABAGbACAEbAKAJbLAA",
   "AbLBAAbLAAcFbLAAJbLAAAbLBAAbLAADbLAAJbLAABbLHABbLbMAfJbCAbHAbCAAAbCAbEAbFBbHbNAeHbAHAJbAkFAd",
   "FbABAbBbAbDbBcBAeEbAKAJbAFAMbCbCAdHNAbFAbIFAJNFAbDbLbLAbJbBAbEBAObBDAPbBGbIlIAdLbEgDAfCbALAA",
   "bAGbHBAAbHBAHbHAABbHAAbNbHAABbHBALbHIAJbHeFAHbFBAcNbFBAKbFbKAeHbDHAdDbDBbFbGbDAbEEbDMAPbIdIb",
   "AGAJbJlFAcBbLNAJbLFAIbCAAcMbCAANbCJAbMbCCAbPbCBAbFbCAANbCeIAGbDAABbDAAcLbDCAAbDAABbDAAIbDHAJ",
   "bDFAFbEAABbEAAcEbEAABbEAAFbEGAJbEbdFAbIbEGAbAbJAAcIbJCAbLbJAbLfEAAbHOAdBbFMAAbFdgOJcJbAAbBgF",
   "AgCJLbAAADJAbAKAmDbBkeLAgCbIMAecOLAbJIbFbMbJJApjKbLEAceGbBbklIAdJbLgmFAcdIMGAbObAAAJbADABbAe",
   "ObIAAJbIFAbNbABAFbAJAeFbAJAJbAAAGbAAAbEbAEAbCbAbkPAdJbLmFAfKbEgEAeENFbFDAAbFcONIbFGAbANdPAAb",
   "CAbDBbFAbHKABbHNAbhoMbCEbEFbFHAcpCbCboCbHcIAAbLIbHccoGADbIAAGbIAABbIAABMbbMbDDbIOAAbJbMACbFB",
   "AAbJNADbFHAbiLbDjaDAgKbAEAMbACAIbAGAJbABAHbApfLApJbLFAblDbLeLAcNbIBAbGbIIAhDbIdLApFFJAcGFBAA",
   "KlDFKbBBbIbEAeFIhJAbDbJLAbDbELAfGHIAbBJGbEiGAfEFAAeGFAABFBAAFBABFBADFAALFAAAFAADFAHBFAAeAFAA",
   "DFBAHFAAGFAAbLFAADFAAEFAAAFCAGFAAbfBFBIBAbcBFBJBAdBFciLbBOAEbBAAObBeePAbObIFAFbJnEAGbCAAbAbC",
   "BAGbCAABbCAAEbCEAdNbJcAAAbJgPAcMbFCANbFBAJbFDABbFbdPAbObIbAAdJbFEAAbFbmPAcJbJnFAcKbLDAAbLbnP",
   "AGbIAADbIAABbIAAObIAAmEbABAPbAcIAeKbCAbFDAJbCDABbCdbAAeDbEeLAdMbFmBADNAAbKNAABNAAANBAANAAJNA",
   "ADNAAANAAANFAANDAANAAANAAANAACNAABNAAANBAANAAANAAANAAANAAANAABNAAANBADNAAGNAADNAADNAAANAAJNA",
   "AbANEACNAAENAAbANdDABNbaNAcLKDAgDKLAOMBANMAbAAAOMAAOMbFbAJAKLBbACbHbOLAbEAMALKMALAMALBMALCMA",
   "LCMELHMALGMALJMBNAbFCbHIMALAMBLBMALJMDLBMALJMbBbCAbHdHAbJMALBMMAcBLIMAbCDAILGABMNAFbDjJAcAML",
   "bACbBFMAbAeFMAbABbBbDMLbAcEMAbAEMDbAEbBLbAbAMGbAHbBdOMAbAAMAbAlFMAbADMBbAAbBdNMBbADNGbAEbBbH",
   "MbBbAAbCcIbAAbCfFbAEMANPMANCMANAMANAMANAMANCMANFMBNDMANAMBNDMANLMBbABbBKMcPbAeFMJbAAbBBbCBbD",
   "AbFBbHDAAbJCbIMbACADbACbCBbDAbEAbFBbHCAhDMCbJDAEbJfEbADbEAbJFALbFDAAbIOALbADAdHbAHAJbAFAcHbA",
   "HAbNbABABbHJbLDABbLdNALbDAbHCbFIbBFbCAbDHbCHbDAbCBbDLbCAbFLbCAbDCbEObCMbDEbEAbFAbHDbEBbHAbIA",
   "bEAbFDbEEbBMbCFbDKbEBbHFbFCbHBbFJbEFbFAbBBbEHbFAbHAbICbFbGbDbIbEfDbFLANbEBADbFAbHCbJCbFBbICA",
   "CbFDbHBbJAbLEAAbLFbFbCbHDbICbJGbHDbICbJAbLAbJCbHCbIAbLGABbJGbHCbIBbJAbLBAAbLHbIAbJAbLFAGbIBb",
   "JGAjCbHAAdGbHcEbLJbHeaDABCkgnGFGbHBbIbPAbadELDbIAbJFAnNMBAbgiBbBNAbndAbDOAcgNbKjkBAcbNFfnPAB",
   "CbdeKbHEAbafPbJnmeNABCpppNABCpppNABCpppNABCpppNABCpppNABCpppNABCpppNABCpppNABCpppNABCpppNABC",
   "AAAFbNAfPFhPAoPHpoaNAcaaaBC"]

end IncrementalParsing.Unicode
