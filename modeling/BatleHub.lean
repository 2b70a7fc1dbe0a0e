import BatleHub.Lib.AssocMap
import BatleHub.Lib.Framing
import BatleHub.Lib.LastReset
import BatleHub.Lib.Runs
import BatleHub.Lib.Slots
import BatleHub.Lib.SortedSearch
import BatleHub.Lib.Texts
import BatleHub.Lib.Intervals
import BatleHub.Lib.Joins
import BatleHub.Lib.JsonText
import BatleHub.Lib.Base64
import BatleHub.Lib.Netstrings
import BatleHub.Vocabulary
import BatleHub.Grants
import BatleHub.Resolution
import BatleHub.Translation
import BatleHub.RbacRules
import BatleHub.NamespaceSeals
import BatleHub.GrantTable
import BatleHub.GrantChain
import BatleHub.ReadableScopes
import BatleHub.DocumentAudience
import BatleHub.LocalPackages
import BatleHub.VersionListings
import BatleHub.VersionRows
import BatleHub.ListingPrefetch
import BatleHub.DocumentCache
import BatleHub.DocumentTraffic
import BatleHub.StampedDocuments
import BatleHub.FreshDocuments
import BatleHub.YankedDocuments
import BatleHub.InMemoryRegistry
import BatleHub.RecordSteps
import BatleHub.TombstoneRuns
import BatleHub.PublishProtocol
import BatleHub.PublishOwnership
import BatleHub.DroppedBytes
import BatleHub.PublishRuns
import BatleHub.PackageOwners
import BatleHub.NameRelease
import BatleHub.Verdicts
import BatleHub.VerdictEvaluation
import BatleHub.VerdictListings
import BatleHub.ScanRecords
import BatleHub.ScanPasses
import BatleHub.VerdictTraffic
import BatleHub.Containment
import BatleHub.BlockTraffic
import BatleHub.KeptBlocks
import BatleHub.ExploreCache
import BatleHub.ExploreKeys
import BatleHub.ExploreTraffic
import BatleHub.AuditEvents
import BatleHub.SealChain
import BatleHub.AuditStore
import BatleHub.AuditTrail
import BatleHub.TrailPlacement
import BatleHub.SealedRuns
import BatleHub.TamperEvidence
import BatleHub.ErasedRows
import BatleHub.ErasureRuns
import BatleHub.SignedUrls
import BatleHub.RedeemedUrls
import BatleHub.StorageRouter
import BatleHub.StoredContent
import BatleHub.RouterRefinement
import BatleHub.BlobLeaks
import BatleHub.RouterTraffic
import BatleHub.LiveBlobs
import BatleHub.Lib.Hex
import BatleHub.Integrity
import BatleHub.CachedFetch
import BatleHub.CacheTraffic
import BatleHub.VerifiedCache
import BatleHub.RecordedChecksums
import BatleHub.CoherenceSweeps
import BatleHub.Lib.Doubling
import BatleHub.Lib.Segments
import BatleHub.StorageKeys
import BatleHub.Lib.FileTree
import BatleHub.FilesystemStorage
import BatleHub.FilesystemContract
import BatleHub.RetentionRuns
import BatleHub.PinnedVersions
import BatleHub.GrantSubjects
import BatleHub.OwnershipGrants
import BatleHub.GrantsInStep
import BatleHub.ForgeCoordinates
import BatleHub.Bundles
import BatleHub.BundleImport
import BatleHub.UpstreamProbes
import BatleHub.UpstreamSweeps
import BatleHub.UpstreamRuns
import BatleHub.ForgeRefs
import BatleHub.Reappearances
import BatleHub.RefResolutions
import BatleHub.AuditBlocks
import BatleHub.WarmedArtifacts
import BatleHub.StorePaths
import BatleHub.NarInfos
import BatleHub.Fingerprints
import BatleHub.Searches
import BatleHub.SearchPrivacy
import BatleHub.MetadataCache
import BatleHub.MetadataAges
import BatleHub.RereadVerdicts
import BatleHub.RepeatedScans
import BatleHub.FlagDenials
import BatleHub.HeldJobs
import BatleHub.RewriteCounts
import BatleHub.Lib.IpTexts
import BatleHub.NetworkRows
import BatleHub.ConfigReload
import BatleHub.NewestFirst
import BatleHub.PublishQuotas
import BatleHub.StagedReloads
import BatleHub.MonotonicPublishing
import BatleHub.KeepConditions
import BatleHub.Eviction
import BatleHub.SizeCap
import BatleHub.EvictionScope
import BatleHub.EvictionPreview
import BatleHub.CompactIndex
import BatleHub.Lib.Decimals
import BatleHub.Pep440
import BatleHub.ComparisonKeys
import BatleHub.ExactKeys
import BatleHub.Lib.Escapes
import BatleHub.PathDecodings
import BatleHub.VersionKeys
import BatleHub.Lib.Bits
import BatleHub.ReleaseAge
import BatleHub.Nix32
import BatleHub.RateWindows
import BatleHub.RollupConservation
import BatleHub.TokenGrants
import BatleHub.NarInfoWire
import BatleHub.FilenameCoordinates
import BatleHub.Lib.JsonBytes
import BatleHub.Lib.JsonValues
import BatleHub.CondaStream
import BatleHub.CondaAgreement
import BatleHub.ScriptPreambles
import BatleHub.ScriptRefusals
import BatleHub.ScriptTraffic
import BatleHub.UpstreamFlights
import BatleHub.DiscoveryReads
import BatleHub.SvgSanitizer
import BatleHub.SvgFixedPoint
import BatleHub.ForwardedClients
import BatleHub.CompactRanges
import BatleHub.ComposerListings
import BatleHub.Packuments
import BatleHub.LinkedTexts
